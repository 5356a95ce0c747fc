import PyLogStream.Lib.Keyed
import PyLogStream.Log.Manager
import PyLogStream.Log.Naming

/-!
The shape of a topic's segment list: sealed, non-empty, contiguous segments
starting at offset zero, followed by one active segment. The registry methods
used by the log writer are described on lists of this shape.
-/

namespace PyLogStream
open Lib

/-- A segment of the topic with the given base offset, under its own file name. -/
structure SegmentAt (logDir topic : String) (base : Nat) (m : SegmentMeta) : Prop where
  topic_eq : m.topic = topic
  base_eq : m.baseOffset = base
  path_eq : m.path = segmentPath logDir topic base

/-- Sealed non-empty segments covering exactly the offsets from `start` to `stop`. -/
def SealedRun (logDir topic : String) (start : Nat) : List SegmentMeta → Nat → Prop
  | [], stop => stop = start
  | m :: rest, stop =>
    SegmentAt logDir topic start m ∧ m.state = .sealed ∧ 0 < m.size ∧
      SealedRun logDir topic (start + m.size) rest stop

/-- The segment list of a topic, split at its active segment. -/
structure TopicSegments (logDir topic : String) (front : List SegmentMeta)
    (last : SegmentMeta) (start : Nat) : Prop where
  run : SealedRun logDir topic 0 front start
  at_end : SegmentAt logDir topic start last
  active : last.state = .active

/-- Every topic of the registry has such a segment list. -/
def SegmentRegistry.Shaped (r : SegmentRegistry) : Prop :=
  ∀ topic segs, r.registry.get? topic = some segs →
    ∃ front last start, segs = front ++ [last] ∧ TopicSegments r.logDir topic front last start

variable {logDir topic : String}

theorem SealedRun.snoc {start stop : Nat} {front : List SegmentMeta} {m : SegmentMeta}
    (run : SealedRun logDir topic start front stop) (at_stop : SegmentAt logDir topic stop m)
    (sealed : m.state = .sealed) (size : 0 < m.size) :
    SealedRun logDir topic start (front ++ [m]) (stop + m.size) := by
  induction front generalizing start with
  | nil =>
      obtain rfl : stop = start := run
      exact ⟨at_stop, sealed, size, rfl⟩
  | cons m' rest ih => exact ⟨run.1, run.2.1, run.2.2.1, ih run.2.2.2⟩

theorem SealedRun.start_le {start stop : Nat} {front : List SegmentMeta}
    (run : SealedRun logDir topic start front stop) : start ≤ stop := by
  induction front generalizing start with
  | nil => exact le_of_eq (Eq.symm run)
  | cons m rest ih =>
      have := ih run.2.2.2
      omega

/-- Every segment of a run ends at or before the run does. -/
theorem SealedRun.mem_bounds {start stop : Nat} {front : List SegmentMeta}
    (run : SealedRun logDir topic start front stop) {m : SegmentMeta} (hm : m ∈ front) :
    ∃ base : Nat, SegmentAt logDir topic base m ∧ m.state = .sealed ∧ 0 < m.size ∧
      start ≤ base ∧ base + m.size ≤ stop := by
  induction front generalizing start with
  | nil => simp at hm
  | cons m' rest ih =>
      rcases List.mem_cons.mp hm with rfl | hrest
      · exact ⟨start, run.1, run.2.1, run.2.2.1, le_refl _, run.2.2.2.start_le⟩
      · obtain ⟨base, hat, hseal, hsize, hlo, hhi⟩ := ih run.2.2.2 hrest
        exact ⟨base, hat, hseal, hsize, by omega, hhi⟩

theorem TopicSegments.mem_at {front : List SegmentMeta} {last : SegmentMeta} {start : Nat}
    (segs : TopicSegments logDir topic front last start) {m : SegmentMeta}
    (hm : m ∈ front ++ [last]) : ∃ base : Nat, SegmentAt logDir topic base m := by
  rcases List.mem_append.mp hm with hfront | hlast
  · obtain ⟨base, hat, -⟩ := segs.run.mem_bounds hfront
    exact ⟨base, hat⟩
  · obtain rfl := List.mem_singleton.mp hlast
    exact ⟨start, segs.at_end⟩

theorem TopicSegments.front_below {front : List SegmentMeta} {last : SegmentMeta} {start : Nat}
    (segs : TopicSegments logDir topic front last start) {m : SegmentMeta} (hm : m ∈ front) :
    m.baseOffset < last.baseOffset := by
  obtain ⟨base, hat, -, hsize, -, hhi⟩ := segs.run.mem_bounds hm
  rw [hat.base_eq, segs.at_end.base_eq]
  omega

theorem SealedRun.bases_increase {start stop : Nat} {front : List SegmentMeta}
    (run : SealedRun logDir topic start front stop) :
    KeysIncrease SegmentMeta.baseOffset front := by
  induction front generalizing start with
  | nil => exact .nil
  | cons m rest ih =>
      refine List.Pairwise.cons ?_ (ih run.2.2.2)
      intro m' hm'
      obtain ⟨base, hat, -, -, hlo, -⟩ := run.2.2.2.mem_bounds hm'
      have hsize := run.2.2.1
      rw [run.1.base_eq, hat.base_eq]
      omega

theorem TopicSegments.bases_increase {front : List SegmentMeta} {last : SegmentMeta} {start : Nat}
    (segs : TopicSegments logDir topic front last start) :
    KeysIncrease SegmentMeta.baseOffset (front ++ [last]) :=
  segs.run.bases_increase.append_above fun _ hm => segs.front_below hm

/-- The search loop ends at the number of base offsets not above the offset. -/
theorem SegmentRegistry.findSegmentLoop_eq (segs : List SegmentMeta) (offset : Int) (k : Nat)
    (below : ∀ j m, segs[j]? = some m → j < k → m.baseOffset ≤ offset)
    (above : ∀ j m, segs[j]? = some m → k ≤ j → offset < m.baseOffset)
    (fuel : Nat) (l r : Int) (hl : 0 ≤ l) (hlk : l ≤ k) (hkr : (k : Int) ≤ r + 1)
    (hr : r + 1 ≤ segs.length) (hfuel : r + 1 - l ≤ fuel) :
    findSegmentLoop segs offset fuel (l - 1) l r = k - 1 := by
  induction fuel generalizing l r with
  | zero =>
      simp only [findSegmentLoop]
      omega
  | succ fuel ih =>
      simp only [findSegmentLoop]
      split
      · next hle =>
          have hmid : (l + r) / 2 < segs.length ∧ l ≤ (l + r) / 2 ∧ (l + r) / 2 ≤ r := by omega
          obtain ⟨m, hm⟩ : ∃ m, segs[((l + r) / 2).toNat]? = some m :=
            ⟨_, List.getElem?_eq_getElem (by omega)⟩
          simp only [hm]
          split
          · next hbase =>
              have hk : ((l + r) / 2).toNat < k := by
                by_contra hge
                exact absurd (above _ m hm (by omega)) (by omega)
              have := ih ((l + r) / 2 + 1) r (by omega) (by omega) hkr hr (by omega)
              simpa using this
          · next hbase =>
              have hk : k ≤ ((l + r) / 2).toNat := by
                by_contra hlt
                exact hbase (below _ m hm (by omega))
              exact ih l ((l + r) / 2 - 1) hl hlk (by omega) (by omega) (by omega)
      · omega

/-- The search finds the last of the segments that start at or below the offset. -/
theorem SegmentRegistry.findSegmentIndex_append {below above : List SegmentMeta} {offset : Int}
    (hbelow : ∀ m ∈ below, m.baseOffset ≤ offset) (habove : ∀ m ∈ above, offset < m.baseOffset) :
    findSegmentIndex (below ++ above) offset = below.length - 1 := by
  have h := findSegmentLoop_eq (below ++ above) offset below.length
    (fun j m hj hlt => by
      rw [List.getElem?_append_left hlt] at hj
      exact hbelow m (List.mem_of_getElem? hj))
    (fun j m hj hge => by
      rw [List.getElem?_append_right hge] at hj
      exact habove m (List.mem_of_getElem? hj))
    (below ++ above).length 0 (((below ++ above).length : Int) - 1)
    (le_refl _) (by omega) (by simp) (by omega) (by omega)
  simpa [findSegmentIndex] using h

theorem SegmentRegistry.findSegmentIndex_of_split {before after : List SegmentMeta}
    {m : SegmentMeta} {offset : Int}
    (hbefore : ∀ m' ∈ before, m'.baseOffset ≤ offset) (hm : m.baseOffset ≤ offset)
    (hafter : ∀ m' ∈ after, offset < m'.baseOffset) :
    findSegmentIndex (before ++ m :: after) offset = before.length := by
  have hbelow : ∀ m' ∈ before ++ [m], m'.baseOffset ≤ offset := by
    intro m' hm'
    rcases List.mem_append.mp hm' with hb | hlast
    · exact hbefore m' hb
    · rw [List.mem_singleton.mp hlast]
      exact hm
  have h := findSegmentIndex_append hbelow hafter
  simpa using h

/-- No segment starts below zero, so only `-1` is found there. -/
theorem SegmentRegistry.Shaped.getSegment_negative {r : SegmentRegistry} (shaped : r.Shaped)
    (topic : String) {offset : Int} (h : offset < -1) :
    ∃ err, r.getSegment topic offset = .error err := by
  cases hget : r.registry.get? topic with
  | none => exact ⟨_, by simp only [getSegment, hget]; rfl⟩
  | some segs =>
      obtain ⟨front, last, start, rfl, hsegs⟩ := shaped topic segs hget
      have habove : ∀ m ∈ front ++ [last], offset < m.baseOffset := by
        intro m hm
        obtain ⟨base, hat⟩ := hsegs.mem_at hm
        rw [hat.base_eq]
        omega
      have hidx : findSegmentIndex (front ++ [last]) offset = -1 := by
        have hnone : ∀ m ∈ ([] : List SegmentMeta), m.baseOffset ≤ offset := by simp
        exact findSegmentIndex_append hnone habove
      have hnot : offset ≠ -1 := by omega
      simp only [getSegment, hget, List.getLast?_concat, if_neg hnot, hidx, if_true]
      split
      · exact ⟨_, rfl⟩
      · exact ⟨_, rfl⟩

namespace SegmentRegistry

theorem setTopic_get? (r : SegmentRegistry) (topic topic' : String) (segs : List SegmentMeta) :
    (r.setTopic topic segs).registry.get? topic' =
      if topic' = topic then some segs else r.registry.get? topic' := by
  simp [setTopic, Dict.get?_set]

@[simp]
theorem setTopic_logDir (r : SegmentRegistry) (topic : String) (segs : List SegmentMeta) :
    (r.setTopic topic segs).logDir = r.logDir := rfl

@[simp]
theorem setTopic_defaultCreatedAt (r : SegmentRegistry) (topic : String)
    (segs : List SegmentMeta) :
    (r.setTopic topic segs).defaultCreatedAt = r.defaultCreatedAt := rfl

@[simp]
theorem setTopic_setTopic (r : SegmentRegistry) (topic : String) (segs segs' : List SegmentMeta) :
    (r.setTopic topic segs).setTopic topic segs' = r.setTopic topic segs' := by
  simp [setTopic]

theorem Shaped.setTopic {r : SegmentRegistry} (shaped : r.Shaped) {front : List SegmentMeta}
    {last : SegmentMeta} {start : Nat} (segs : TopicSegments r.logDir topic front last start) :
    (r.setTopic topic (front ++ [last])).Shaped := by
  intro topic' segs' hget
  rw [setTopic_get?] at hget
  split at hget
  · next heq =>
      obtain rfl := Option.some.inj hget
      exact ⟨front, last, start, rfl, heq ▸ segs⟩
  · exact shaped topic' segs' hget

theorem newSegment_at (r : SegmentRegistry) (topic : String) (base : Nat) :
    SegmentAt r.logDir topic base (r.newSegment topic base) := ⟨rfl, rfl, rfl⟩

section Active
variable {r : SegmentRegistry} {front : List SegmentMeta} {last : SegmentMeta} {start : Nat}
  (hget : r.registry.get? topic = some (front ++ [last]))
  (segs : TopicSegments r.logDir topic front last start)
include hget segs

theorem getSegment_latest : r.getSegment topic (-1) = .ok last := by
  have hend : ¬ last.getEndOffset < -1 := by
    have := segs.at_end.base_eq
    simp only [SegmentMeta.getEndOffset, this]
    omega
  simp [getSegment, hget, hend]

theorem getLatestOffset_active : r.getLatestOffset topic = .ok ((start + last.size : Nat) : Int) := by
  simp [getLatestOffset, hget, SegmentMeta.getEndOffset, segs.at_end.base_eq]

omit hget in
theorem bisectLeft_last : bisectLeft (front ++ [last]) last.baseOffset = front.length := by
  rw [bisectLeft, segs.bases_increase.takeWhile_below]

theorem progressState_seal :
    r.progressState last .sealed = .ok ({ last with state := .sealed },
      r.setTopic topic (front ++ [{ last with state := .sealed }])) := by
  have htopic := segs.at_end.topic_eq
  have hidx := bisectLeft_last segs
  simp [progressState, htopic, hget, hidx, segs.active, allowedTransitions]

theorem advanceOffset_last (length : Nat) :
    r.advanceOffset last length = .ok ({ last with size := last.size + length },
      r.setTopic topic (front ++ [{ last with size := last.size + length }])) := by
  have htopic := segs.at_end.topic_eq
  have hidx : findSegmentIndex (front ++ [last]) last.baseOffset = front.length :=
    findSegmentIndex_of_split (fun m hm => le_of_lt (segs.front_below hm)) (le_refl _)
      (by simp)
  have hlist : listIndex (front ++ [last]).length (front.length : Int) = some front.length := by
    simp [listIndex]
  simp only [advanceOffset, htopic, hget, hidx, hlist]
  simp [htopic]

/-- Rolling over seals a non-empty active segment and opens a segment at its end. -/
theorem rollover_active (hsize : 0 < last.size) :
    LogManager.rollover r topic = .ok (r.newSegment topic (start + last.size : Nat),
      r.setTopic topic (front ++ [{ last with state := .sealed },
        r.newSegment topic (start + last.size : Nat)])) := by
  have hsealed : ({ last with state := .sealed } : SegmentMeta).getEndOffset =
      ((start + last.size : Nat) : Int) := by
    simp [SegmentMeta.getEndOffset, segs.at_end.base_eq]
  have hend : last.getEndOffset = ((start + last.size : Nat) : Int) := hsealed
  have hfree : ¬ (((start + last.size : Nat) : Int) > ((start + last.size : Nat) : Int) ∨
      last.baseOffset = ((start + last.size : Nat) : Int)) := by
    rw [segs.at_end.base_eq]
    omega
  simp only [LogManager.rollover, getSegment_latest hget segs, progressState_seal hget segs,
    createSegment, setTopic_get?, ite_true, List.getLast?_concat, hsealed, hend, if_neg hfree]
  simp [newSegment, buildSegmentPath]

end Active
end SegmentRegistry
end PyLogStream
