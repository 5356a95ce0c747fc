import PyLogStream.Log.Read

/-!
Reading at a record boundary. The registry finds the segment that contains an
offset because the segments of a topic follow each other without a gap, and the
size computation of the reader walks over whole records when it starts at one.
-/

namespace PyLogStream
open Lib

/-- Segments that follow each other without a gap. -/
def Contiguous (start : Nat) : List SegmentMeta → Prop
  | [] => True
  | m :: rest => m.baseOffset = start ∧ Contiguous (start + m.size) rest

def totalSize (segs : List SegmentMeta) : Nat := (segs.map SegmentMeta.size).sum

section Contiguity
variable {logDir topic : String} {start : Nat}

theorem SealedRun.contiguous {front : List SegmentMeta} {last : SegmentMeta} {stop : Nat}
    (run : SealedRun logDir topic start front stop) (at_end : SegmentAt logDir topic stop last) :
    Contiguous start (front ++ [last]) ∧ start + totalSize front = stop := by
  induction front generalizing start with
  | nil =>
      obtain rfl : stop = start := run
      exact ⟨⟨at_end.base_eq, trivial⟩, rfl⟩
  | cons m rest ih =>
      obtain ⟨hcont, htotal⟩ := ih run.2.2.2
      refine ⟨⟨run.1.base_eq, hcont⟩, ?_⟩
      simp only [totalSize, List.map_cons, List.sum_cons] at htotal ⊢
      omega

theorem Contiguous.base_eq {before after : List SegmentMeta} {m : SegmentMeta}
    (h : Contiguous start (before ++ m :: after)) :
    m.baseOffset = (start + totalSize before : Nat) := by
  induction before generalizing start with
  | nil => simpa [totalSize] using h.1
  | cons m' rest ih =>
      rw [ih h.2]
      simp only [totalSize, List.map_cons, List.sum_cons]
      omega

theorem Contiguous.start_le {segs : List SegmentMeta} (h : Contiguous start segs)
    {m : SegmentMeta} (hm : m ∈ segs) : (start : Int) ≤ m.baseOffset := by
  obtain ⟨before, after, rfl⟩ := List.append_of_mem hm
  rw [h.base_eq]
  omega

theorem Contiguous.drop {before after : List SegmentMeta}
    (h : Contiguous start (before ++ after)) : Contiguous (start + totalSize before) after := by
  induction before generalizing start with
  | nil => simpa [totalSize] using h
  | cons m rest ih =>
      have := ih h.2
      simpa [totalSize, Nat.add_assoc] using this

theorem Contiguous.before_end_le {before after : List SegmentMeta} {m m' : SegmentMeta}
    (h : Contiguous start (before ++ m :: after)) (hm' : m' ∈ before) :
    m'.getEndOffset ≤ m.baseOffset := by
  obtain ⟨b₁, b₂, rfl⟩ := List.append_of_mem hm'
  have h' : Contiguous start (b₁ ++ m' :: (b₂ ++ m :: after)) := by simpa using h
  have hrest := h'.drop.2
  rw [SegmentMeta.getEndOffset, h'.base_eq, hrest.base_eq]
  omega

end Contiguity

section Lookup
variable {r : SegmentRegistry} {topic : String} {before after : List SegmentMeta}
  {m : SegmentMeta} {offset : Int}

/-- The search finds the segment that contains the offset. -/
theorem SegmentRegistry.getSegment_of_split
    (hget : r.registry.get? topic = some (before ++ m :: after))
    (hcont : Contiguous 0 (before ++ m :: after)) (hlo : m.baseOffset ≤ offset)
    (hhi : offset < m.getEndOffset) : r.getSegment topic offset = .ok m := by
  have hbase := hcont.base_eq
  have hbefore : ∀ m' ∈ before, m'.baseOffset ≤ offset := by
    intro m' hm'
    have := hcont.before_end_le hm'
    simp only [SegmentMeta.getEndOffset] at this
    omega
  have hafter : ∀ m' ∈ after, offset < m'.baseOffset := by
    intro m' hm'
    have := hcont.drop.2.start_le hm'
    simp only [SegmentMeta.getEndOffset] at hhi
    omega
  have hidx := findSegmentIndex_of_split hbefore hlo hafter
  obtain ⟨previous, hlast⟩ : ∃ previous, (before ++ m :: after).getLast? = some previous := by
    cases h : (before ++ m :: after).getLast? with
    | none => simp at h
    | some previous => exact ⟨previous, rfl⟩
  have hprev : ¬ previous.getEndOffset < offset := by
    have hmem := List.mem_of_getLast? hlast
    rw [List.getLast?_append, List.getLast?_cons] at hlast
    cases hafter' : after.getLast? with
    | none =>
        simp only [hafter', Option.getD_none, Option.some_or, Option.some.injEq] at hlast
        rw [← hlast]
        omega
    | some last =>
        simp only [hafter', Option.getD_some, Option.some_or, Option.some.injEq] at hlast
        have := hafter last (List.mem_of_getLast? hafter')
        rw [← hlast, SegmentMeta.getEndOffset]
        omega
  have hneg : ¬ offset = -1 := by omega
  have hfound : ¬ ((before.length : Int) = -1) := by omega
  simp only [getSegment, hget, hlast, if_neg hprev, if_neg hneg, hidx, if_neg hfound,
    Int.toNat_natCast]
  simp [hhi]

end Lookup

section Batch
variable {view junk : Bytes} {off : Nat} {max : Int}

/-- At a record the four bytes read are the length of its payload. -/
theorem readView_header {p : Bytes} {ps : List Bytes} (hshort : p.length < 2 ^ 32)
    (hview : view.drop off = frames (p :: ps) ++ junk) :
    ofBigEndian (readView view off 4) = p.length := by
  have hread := slice_of_nat view off 4
  rw [hview, frames_cons, List.append_assoc, frame_take_four, Nat.cast_ofNat] at hread
  rw [readView, hread, ofBigEndian_bigEndian32 hshort]

theorem calcReadLoop_done (fuel : Nat) {batch roffset : Int} (h : ¬ roffset < (off : Int) + max) :
    LogManager.calcReadLoop view off max fuel batch roffset = batch := by
  cases fuel <;> simp [LogManager.calcReadLoop, h]

/-- The loop walks over whole records and stops at the first one that does not fit. -/
theorem calcReadLoop_frames (todo : List Bytes) (junk : Bytes)
    (short : ∀ p ∈ todo, p.length < 2 ^ 32) (batch fuel : Nat)
    (hview : view.drop (off + batch) = frames todo ++ junk)
    (hmax : max ≤ (batch + (frames todo).length : Nat)) (hfuel : max - batch ≤ fuel) :
    LogManager.calcReadLoop view off max fuel batch ((off : Int) + batch) =
      (batch + (frames (framesWithin (max - batch) todo)).length : Nat) := by
  induction todo generalizing batch fuel with
  | nil =>
      rw [calcReadLoop_done fuel (by simp at hmax; omega)]
      simp [framesWithin]
  | cons p ps ih =>
      by_cases hmore : (batch : Int) < max
      · obtain ⟨fuel, rfl⟩ : ∃ k, fuel = k + 1 := ⟨fuel - 1, by omega⟩
        have hlen := readView_header (short p List.mem_cons_self) hview
        rw [Nat.cast_add] at hlen
        have hloop : (off : Int) + batch < off + max := by omega
        simp only [LogManager.calcReadLoop, if_pos hloop, hlen]
        by_cases hfit : ((frame p).length : Int) ≤ max - batch
        · have hfit' : (batch : Int) + p.length + 4 ≤ max := by
            simp only [frame_length] at hfit
            omega
          have hnext := ih (fun q hq => short q (List.mem_cons_of_mem _ hq))
            (batch + (frame p).length) fuel
            (by
              rw [← Nat.add_assoc, ← List.drop_drop, hview, frames_cons, List.append_assoc,
                List.drop_left])
            (by simp only [frames_cons, List.length_append] at hmax; omega)
            (by simp only [frame_length]; omega)
          have hb : (batch : Int) + (p.length + 4) = ((batch + (frame p).length : Nat) : Int) := by
            simp only [frame_length]
            omega
          have ho : (off : Int) + batch + (p.length + 4) =
              (off : Int) + ((batch + (frame p).length : Nat) : Int) := by
            rw [← hb]
            omega
          have hsub : max - ((batch + (frame p).length : Nat) : Int) =
              max - batch - (frame p).length := by omega
          rw [if_pos hfit', hb, ho, hnext, hsub, framesWithin, if_pos hfit]
          simp only [frames_cons, List.length_append]
          omega
        · have hfit' : ¬ (batch : Int) + p.length + 4 ≤ max := by
            simp only [frame_length] at hfit
            omega
          rw [if_neg hfit', calcReadLoop_done fuel (by omega), framesWithin, if_neg hfit]
          simp
      · have hfit : ¬ ((frame p).length : Int) ≤ max - batch := by
          simp only [frame_length]
          omega
        rw [calcReadLoop_done fuel (by omega), framesWithin, if_neg hfit]
        simp

/-- At a record boundary a batch consists of whole records, and of at least one. -/
theorem calcReadSize_frames {todo : List Bytes} {junk : Bytes}
    (short : ∀ p ∈ todo, p.length < 2 ^ 32) (hne : todo ≠ [])
    (hview : view.drop off = frames todo ++ junk) (size : Int) :
    LogManager.calcReadSize view off (min size (frames todo).length) =
      ((frames (firstBatch size todo)).length : Nat) := by
  have hview₀ : view.drop (off + 0) = frames todo ++ junk := by simpa using hview
  have hmax : min size ((frames todo).length : Int) ≤ (0 + (frames todo).length : Nat) := by omega
  have hloop := calcReadLoop_frames todo junk short 0 (min size (frames todo).length).toNat
    hview₀ hmax (by omega)
  simp only [Nat.cast_zero, Int.add_zero, Int.sub_zero, Nat.zero_add, framesWithin_min] at hloop
  simp only [LogManager.calcReadSize, hloop, firstBatch]
  by_cases hnil : framesWithin size todo = []
  · obtain ⟨p, ps, rfl⟩ := List.exists_cons_of_ne_nil hne
    have hlen := readView_header (short p List.mem_cons_self) hview
    simp only [hnil, hlen, frames_nil, List.length_nil, Nat.cast_zero, if_true]
    simp
    omega
  · have hpos : (frames (framesWithin size todo)).length ≠ 0 := by
      simpa using frames_ne_nil hnil
    rw [if_neg (by omega), if_neg hnil]

/-- The values of `batch_size` and `roffset` at which the loop of `_calc_read_size`
tests its condition. -/
inductive CalcReadAt (view : Bytes) (off max : Int) : Int → Int → Prop
  | start : CalcReadAt view off max 0 off
  | next {batch roffset : Int} (here : CalcReadAt view off max batch roffset)
      (more : roffset < off + max) :
      CalcReadAt view off max
        (if batch + ofBigEndian (readView view roffset 4) + 4 ≤ max then
          batch + (ofBigEndian (readView view roffset 4) + 4) else batch)
        (roffset + (ofBigEndian (readView view roffset 4) + 4))

/-- Whatever the bytes are, `roffset` grows, so the loop comes to its end. -/
theorem CalcReadAt.ends {off batch roffset : Int} (h : CalcReadAt view off max batch roffset)
    (fuel : Nat) (hfuel : off + max - roffset ≤ fuel) :
    ∃ last, CalcReadAt view off max (LogManager.calcReadLoop view off max fuel batch roffset) last ∧
      ¬ last < off + max := by
  induction fuel generalizing batch roffset with
  | zero => exact ⟨roffset, h, by omega⟩
  | succ fuel ih =>
      simp only [LogManager.calcReadLoop]
      by_cases hmore : roffset < off + max
      · rw [if_pos hmore]
        exact ih (h.next hmore) (by omega)
      · rw [if_neg hmore]
        exact ⟨roffset, h, hmore⟩

/-- What links the two counters. While the loop goes on it has taken every record
up to `roffset`; a record that does not fit moves `roffset` past the bound. -/
theorem CalcReadAt.whole {todo : List Bytes} {batch roffset : Int}
    (short : ∀ p ∈ todo, p.length < 2 ^ 32) (hview : view.drop off = frames todo ++ junk)
    (hmax : max ≤ (frames todo).length) (h : CalcReadAt view off max batch roffset) :
    (∃ taken left, todo = taken ++ left ∧ batch = (frames taken).length ∧
      roffset = off + batch) ∨ off + max ≤ roffset := by
  induction h with
  | start => exact .inl ⟨[], todo, rfl, rfl, by simp⟩
  | next here more ih =>
      obtain ⟨taken, left, rfl, rfl, rfl⟩ | hpast := ih
      · cases left with
        | nil =>
            rw [List.append_nil] at hmax
            omega
        | cons p ps =>
            have hdrop : view.drop (off + (frames taken).length) = frames (p :: ps) ++ junk := by
              rw [← List.drop_drop, hview, frames_append, List.append_assoc, List.drop_left]
            have hlen := readView_header (short p (by simp)) hdrop
            rw [Nat.cast_add] at hlen
            rw [hlen]
            by_cases hfit : ((frames taken).length : Int) + p.length + 4 ≤ max
            · rw [if_pos hfit]
              refine .inl ⟨taken ++ [p], ps, by simp, ?_, by omega⟩
              simp only [frames_append, frames_cons, frames_nil, List.append_nil,
                List.length_append, frame_length]
              omega
            · exact .inr (by omega)
      · omega

/-- The batch the reader sizes is the longest run of whole records from `offset` on
that fits, and the first record where not even that one fits. -/
theorem calcReadSize_greedy {before todo : List Bytes} {spare : Bytes} {max : Int}
    (short : ∀ p ∈ todo, p.length < 2 ^ 32) (hne : todo ≠ []) (hmax : max ≤ (frames todo).length) :
    (∃ last, CalcReadAt (frames (before ++ todo) ++ spare) (frames before).length max
        (LogManager.calcReadLoop (frames (before ++ todo) ++ spare) (frames before).length max
          max.toNat 0 (frames before).length) last ∧ ¬ last < (frames before).length + max) ∧
    (∀ batch roffset,
      CalcReadAt (frames (before ++ todo) ++ spare) (frames before).length max batch roffset →
      roffset < (frames before).length + max → roffset = (frames before).length + batch) ∧
    ∃ run, run <+: todo ∧ run ≠ [] ∧
      LogManager.calcReadSize (frames (before ++ todo) ++ spare) (frames before).length max =
        (frames run).length ∧
      (∀ t, t <+: todo → ((frames t).length : Int) ≤ max → t <+: run) ∧
      (((frames run).length : Int) ≤ max ∨
        run = todo.take 1 ∧ max < (frames run).length) := by
  have hview : (frames (before ++ todo) ++ spare).drop (frames before).length =
      frames todo ++ spare := by
    rw [frames_append, List.append_assoc, List.drop_left]
  refine ⟨CalcReadAt.start.ends max.toNat (by omega), ?_, firstBatch max todo,
    firstBatch_isPrefix max todo, firstBatch_ne_nil max hne, ?_,
    fun t ht hfit => firstBatch_maximal ht hfit, firstBatch_fits_or_first max hne⟩
  · intro batch roffset hat hmore
    obtain ⟨-, -, -, -, hr⟩ | hpast := hat.whole short hview hmax
    · exact hr
    · omega
  · have hsize := calcReadSize_frames short hne hview max
    rwa [min_eq_left hmax] at hsize

/-- Three records of six, seven and five bytes behind one of five, and room for 12:
the third would still fit behind the first, but the batch ends before the second. -/
theorem calcReadSize_greedy_stops :
    ∃ run, run <+: [[1, 2], [3, 4, 5], [6]] ∧ run ≠ [] ∧
      LogManager.calcReadSize (frames ([[0]] ++ [[1, 2], [3, 4, 5], [6]]) ++ [0, 0])
        (frames [[0]]).length 12 = (frames run).length ∧
      (∀ t, t <+: [[1, 2], [3, 4, 5], [6]] → ((frames t).length : Int) ≤ 12 → t <+: run) ∧
      (((frames run).length : Int) ≤ 12 ∨
        run = [[1, 2], [3, 4, 5], [6]].take 1 ∧ (12 : Int) < (frames run).length) :=
  (calcReadSize_greedy (by decide) (by decide) (by decide)).2.2

end Batch
end PyLogStream
