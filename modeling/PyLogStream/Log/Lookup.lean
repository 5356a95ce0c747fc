import PyLogStream.Log.Chain

/-!
Lookups in the segment list of a topic (`SegmentRegistry.get_segment` and
`get_segment_by_base_offset`). The list may be any whose base offsets increase and in
which no segment reaches into a later one, as `create_segment` leaves it; there may be
gaps between the segments, and empty segments anywhere. The search finds the last
segment that starts at or below the offset, and only that one can contain it.
-/

namespace PyLogStream
open Lib

/-- The errors of the registry that are `ValueError`s. -/
def LogError.isValueError : LogError → Bool
  | .segmentOverlapping _ _ | .emptyTopic _ | .offsetBeyondEnd _ _ | .offsetNotFound _ _
  | .invalidTopic | .segmentNotInRegistry => true
  | _ => false

/-- The half-open range of a segment. -/
def SegmentMeta.Contains (m : SegmentMeta) (offset : Int) : Prop :=
  m.baseOffset ≤ offset ∧ offset < m.getEndOffset

instance (m : SegmentMeta) (offset : Int) : Decidable (m.Contains offset) :=
  inferInstanceAs (Decidable (_ ∧ _))

/-- Base offsets increase, and a segment ends before the later ones start. -/
structure OffsetsOrdered (segs : List SegmentMeta) : Prop where
  increase : KeysIncrease SegmentMeta.baseOffset segs
  apart : segs.Pairwise fun m m' => m.getEndOffset ≤ m'.baseOffset

instance (segs : List SegmentMeta) : Decidable (OffsetsOrdered segs) :=
  decidable_of_iff
    (KeysIncrease SegmentMeta.baseOffset segs ∧
      segs.Pairwise fun m m' => m.getEndOffset ≤ m'.baseOffset)
    ⟨fun h => ⟨h.1, h.2⟩, fun h => ⟨h.increase, h.apart⟩⟩

/-- The outcome of a lookup for the one segment of a list that has a property. -/
def FindsOnly (segs : List SegmentMeta) (p : SegmentMeta → Prop) :
    Except LogError SegmentMeta → Prop
  | .ok m => m ∈ segs ∧ p m ∧ ∀ m' ∈ segs, p m' → m' = m
  | .error err => err.isValueError = true ∧ ∀ m ∈ segs, ¬ p m

/-- What the search for an offset can return. -/
inductive SearchCase (segs : List SegmentMeta) (offset : Int) : Int → Prop
  | none (above : ∀ m ∈ segs, offset < m.baseOffset) : SearchCase segs offset (-1)
  | found {before after : List SegmentMeta} {m : SegmentMeta} (split : segs = before ++ m :: after)
      (reached : m.baseOffset ≤ offset) (above : ∀ m' ∈ after, offset < m'.baseOffset) :
      SearchCase segs offset before.length

section
variable {segs front : List SegmentMeta} {last m : SegmentMeta} {offset : Int}

theorem SegmentMeta.baseOffset_le_end (m : SegmentMeta) : m.baseOffset ≤ m.getEndOffset := by
  rw [getEndOffset]
  omega

theorem searchCase (increase : KeysIncrease SegmentMeta.baseOffset segs) (offset : Int) :
    SearchCase segs offset (SegmentRegistry.findSegmentIndex segs offset) := by
  obtain ⟨below, above, rfl, hbelow, habove⟩ := increase.split_at offset
  rw [SegmentRegistry.findSegmentIndex_append hbelow habove]
  rcases List.eq_nil_or_concat below with rfl | ⟨before, m, rfl⟩
  · exact .none habove
  · have hreached : m.baseOffset ≤ offset := hbelow m (by simp)
    have hindex : ((before ++ [m]).length : Int) - 1 = before.length := by simp
    rw [List.concat_eq_append, hindex]
    exact .found (by simp) hreached habove

theorem OffsetsOrdered.end_le_last (ordered : OffsetsOrdered (front ++ [last]))
    (hm : m ∈ front ++ [last]) : m.getEndOffset ≤ last.getEndOffset := by
  rcases List.mem_append.mp hm with hfront | hlast
  · have hapart := (List.pairwise_append.mp ordered.apart).2.2 m hfront last (by simp)
    exact hapart.trans last.baseOffset_le_end
  · rw [List.mem_singleton.mp hlast]

/-- Only the last segment that starts at or below an offset can contain it. -/
theorem OffsetsOrdered.eq_of_contains {before after : List SegmentMeta}
    (ordered : OffsetsOrdered (before ++ m :: after)) (reached : m.baseOffset ≤ offset)
    (above : ∀ m' ∈ after, offset < m'.baseOffset) {m' : SegmentMeta}
    (hm' : m' ∈ before ++ m :: after) (contains : m'.Contains offset) : m' = m := by
  rcases List.mem_append.mp hm' with hbefore | hrest
  · have hapart : m'.getEndOffset ≤ m.baseOffset :=
      (List.pairwise_append.mp ordered.apart).2.2 m' hbefore m List.mem_cons_self
    exact absurd (contains.2.trans_le (hapart.trans reached)) (lt_irrefl offset)
  · rcases List.mem_cons.mp hrest with rfl | hafter
    · rfl
    · exact absurd contains.1 (not_le.mpr (above m' hafter))

theorem SealedRun.apart {logDir topic : String} {start stop : Nat}
    (run : SealedRun logDir topic start front stop) :
    front.Pairwise fun m m' => m.getEndOffset ≤ m'.baseOffset := by
  induction front generalizing start with
  | nil => exact .nil
  | cons m rest ih =>
      refine List.Pairwise.cons (fun m' hm' => ?_) (ih run.2.2.2)
      obtain ⟨base, hat, -, -, hlo, -⟩ := run.2.2.2.mem_bounds hm'
      rw [SegmentMeta.getEndOffset, run.1.base_eq, hat.base_eq]
      omega

namespace SegmentRegistry
variable {r : SegmentRegistry} {topic : String}

theorem getSegment_finds (hget : r.registry.get? topic = some segs)
    (ordered : OffsetsOrdered segs) (hoffset : 0 ≤ offset) :
    FindsOnly segs (fun m => m.Contains offset) (r.getSegment topic offset) := by
  have hnot : offset ≠ -1 := by omega
  rcases List.eq_nil_or_concat segs with rfl | ⟨front, last, rfl⟩
  · simp [getSegment, hget, FindsOnly, LogError.isValueError]
  rw [List.concat_eq_append] at hget ordered ⊢
  simp only [getSegment, hget, List.getLast?_concat, if_neg hnot]
  by_cases hbeyond : last.getEndOffset < offset
  · rw [if_pos hbeyond]
    refine ⟨rfl, fun m hm contains => ?_⟩
    have hend := ordered.end_le_last hm
    exact absurd (contains.2.trans_le (hend.trans hbeyond.le)) (lt_irrefl offset)
  rw [if_neg hbeyond]
  generalize hindex : findSegmentIndex (front ++ [last]) offset = i
  have hcase := searchCase ordered.increase offset
  rw [hindex] at hcase
  cases hcase with
  | none above =>
      simp only [if_true]
      exact ⟨rfl, fun m hm contains => absurd contains.1 (not_le.mpr (above m hm))⟩
  | @found before after m split reached above =>
      have hpos : ¬ (before.length : Int) = -1 := by omega
      rw [split] at ordered ⊢
      simp only [if_neg hpos, Int.toNat_natCast, List.getElem?_append_right (le_refl _),
        Nat.sub_self, List.getElem?_cons_zero]
      by_cases hend : m.getEndOffset ≤ offset
      · rw [if_pos hend]
        refine ⟨rfl, fun m' hm' contains => ?_⟩
        obtain rfl := ordered.eq_of_contains reached above hm' contains
        exact absurd contains.2 (not_lt.mpr hend)
      · rw [if_neg hend]
        exact ⟨by simp, ⟨reached, not_le.mp hend⟩, fun m' hm' contains =>
          ordered.eq_of_contains reached above hm' contains⟩

theorem getSegmentByBaseOffset_finds (hget : r.registry.get? topic = some segs)
    (increase : KeysIncrease SegmentMeta.baseOffset segs) (baseOffset : Int) :
    FindsOnly segs (fun m => m.baseOffset = baseOffset)
      (r.getSegmentByBaseOffset topic baseOffset) := by
  cases segs with
  | nil => simp [getSegmentByBaseOffset, hget, FindsOnly, LogError.isValueError]
  | cons first rest =>
      simp only [getSegmentByBaseOffset, hget]
      generalize hsegs : first :: rest = segs at increase ⊢
      generalize hindex : findSegmentIndex segs baseOffset = i
      have hcase := searchCase increase baseOffset
      rw [hindex] at hcase
      cases hcase with
      | none above =>
          simp only [if_true]
          exact ⟨rfl, fun m hm heq => absurd (above m hm) (by omega)⟩
      | @found before after m split reached above =>
          have hpos : ¬ (before.length : Int) = -1 := by omega
          rw [split] at increase ⊢
          simp only [if_neg hpos, Int.toNat_natCast, List.getElem?_append_right (le_refl _),
            Nat.sub_self, List.getElem?_cons_zero]
          have hmem : m ∈ before ++ m :: after := by simp
          by_cases hbase : m.baseOffset = baseOffset
          · rw [if_pos hbase]
            exact ⟨hmem, hbase, fun m' hm' heq => increase.eq_of_key hm' hmem (heq.trans hbase.symm)⟩
          · rw [if_neg hbase]
            refine ⟨rfl, fun m' hm' heq => ?_⟩
            rcases List.mem_append.mp hm' with hbefore | hrest
            · have := increase.front_below hbefore
              omega
            · rcases List.mem_cons.mp hrest with rfl | hafter
              · exact hbase heq
              · have := above m' hafter
                omega

/-- The segments of a topic that has only been created and appended to are ordered. -/
theorem Shaped.offsetsOrdered (shaped : r.Shaped) (hget : r.registry.get? topic = some segs) :
    OffsetsOrdered segs := by
  obtain ⟨front, last, start, rfl, hsegs⟩ := shaped topic segs hget
  refine ⟨hsegs.bases_increase, List.pairwise_append.mpr ⟨hsegs.run.apart,
    List.pairwise_singleton _ _, fun m hm m' hm' => ?_⟩⟩
  obtain ⟨base, hat, -, -, -, hhi⟩ := hsegs.run.mem_bounds hm
  rw [List.mem_singleton.mp hm', hsegs.at_end.base_eq, SegmentMeta.getEndOffset, hat.base_eq]
  omega

/-- On ordered segments both lookups are exact: they return the one segment that contains
the offset, or has the base offset, and raise `ValueError` when there is none. -/
theorem lookups_exact (r : SegmentRegistry) (topic : String) (segs : List SegmentMeta)
    (hget : r.registry.get? topic = some segs) (ordered : OffsetsOrdered segs) :
    (∀ offset, 0 ≤ offset →
        FindsOnly segs (fun m => m.Contains offset) (r.getSegment topic offset)) ∧
      ∀ baseOffset, FindsOnly segs (fun m => m.baseOffset = baseOffset)
        (r.getSegmentByBaseOffset topic baseOffset) :=
  ⟨fun _ hoffset => getSegment_finds hget ordered hoffset,
    fun baseOffset => getSegmentByBaseOffset_finds hget ordered.increase baseOffset⟩

/-- A gap behind the first segment, an empty segment in the middle and one at the end. -/
def gappedSegments : List SegmentMeta :=
  [⟨"t", 0, "t/0", .sealed, 0, 10⟩, ⟨"t", 20, "t/20", .sealed, 0, 0⟩,
    ⟨"t", 25, "t/25", .sealed, 0, 5⟩, ⟨"t", 30, "t/30", .active, 0, 0⟩]

theorem lookups_exact_gapped :
    let r : SegmentRegistry := ⟨"logs", 0, Dict.empty.set "t" gappedSegments⟩
    OffsetsOrdered gappedSegments ∧
      (∀ offset, 0 ≤ offset →
        FindsOnly gappedSegments (fun m => m.Contains offset) (r.getSegment "t" offset)) ∧
      ∀ baseOffset, FindsOnly gappedSegments (fun m => m.baseOffset = baseOffset)
        (r.getSegmentByBaseOffset "t" baseOffset) := by
  intro r
  have ordered : OffsetsOrdered gappedSegments := by decide
  exact ⟨ordered, lookups_exact r "t" gappedSegments (by simp [r]) ordered⟩

end SegmentRegistry
end
end PyLogStream
