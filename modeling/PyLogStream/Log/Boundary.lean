import PyLogStream.Log.Payloads

/-!
Offsets and payloads. The latest offset of a topic is the length of its framed
payloads, and a read at the offset of a payload returns a batch of the payloads
from there on, all of them out of one segment.
-/

namespace PyLogStream
open Lib

section
variable {lm : LogManager} {topic : String}

/-- Only the records of the topic itself matter to its bytes and to its end. -/
theorem logBytes_of_records (shaped : lm.registry.Shaped)
    (recs : ∀ m, lm.registry.Holds m → m.topic = topic → WholeRecords lm.disk m) :
    lm.logBytes topic = frames (lm.payloads topic) := by
  unfold LogManager.logBytes LogManager.payloads
  rw [frames_flatMap]
  cases hget : lm.registry.registry.get? topic with
  | none => rfl
  | some segs =>
      apply List.flatMap_congr
      intro m hm
      obtain ⟨hold, ht⟩ := shaped.mem_topic hget hm
      exact ((recs m hold ht).frames_eq).symm

theorem logBytes_eq_frames (ok : LogOk lm) (recs : RecordsOk lm) (topic : String) :
    lm.logBytes topic = frames (lm.payloads topic) :=
  logBytes_of_records ok.shaped fun m hm _ => recs m hm

theorem totalSize_eq_frames {disk : Disk} {segs : List SegmentMeta}
    (h : ∀ m ∈ segs, WholeRecords disk m) :
    totalSize segs = (frames (segs.flatMap (segmentPayloads disk))).length := by
  induction segs with
  | nil => rfl
  | cons m segs ih =>
      have htail := ih fun m' hm' => h m' (List.mem_cons_of_mem _ hm')
      have hsize := (h m List.mem_cons_self).size_eq
      simp only [totalSize, List.map_cons, List.sum_cons] at htail ⊢
      simp only [List.flatMap_cons, frames_append, List.length_append]
      omega

theorem TopicSegments.totalSize_eq {logDir : String} {front : List SegmentMeta}
    {last : SegmentMeta} {start : Nat} (segs : TopicSegments logDir topic front last start) :
    totalSize (front ++ [last]) = start + last.size := by
  obtain ⟨-, hstart⟩ := segs.run.contiguous segs.at_end
  simp only [totalSize, List.map_append, List.sum_append] at hstart ⊢
  simp only [List.map_cons, List.map_nil, List.sum_cons, List.sum_nil]
  omega

theorem latestOffset_of_records (shaped : lm.registry.Shaped)
    (recs : ∀ m, lm.registry.Holds m → m.topic = topic → WholeRecords lm.disk m)
    {segs : List SegmentMeta} (hget : lm.registry.registry.get? topic = some segs) :
    lm.getLatestOffset topic = .ok ((frames (lm.payloads topic)).length : Int) := by
  have hrecs : ∀ m ∈ segs, WholeRecords lm.disk m := by
    intro m hm
    obtain ⟨hold, ht⟩ := shaped.mem_topic hget hm
    exact recs m hold ht
  have htotal := totalSize_eq_frames hrecs
  obtain ⟨front, last, start, rfl, hsegs⟩ := shaped _ _ hget
  have hlatest := SegmentRegistry.getLatestOffset_active hget hsegs
  rw [LogManager.getLatestOffset, hlatest, ← hsegs.totalSize_eq, htotal, LogManager.payloads, hget]
  rfl

theorem latestOffset_eq (ok : LogOk lm) (recs : RecordsOk lm) {segs : List SegmentMeta}
    (hget : lm.registry.registry.get? topic = some segs) :
    lm.getLatestOffset topic = .ok ((frames (lm.payloads topic)).length : Int) :=
  latestOffset_of_records ok.shaped (fun m hm _ => recs m hm) hget

/-- The offset behind the payloads `qs` lies in the segment `m`, which holds `c₁` up
to there and `c₂` from there on. -/
structure Boundary (lm : LogManager) (topic : String) (qs rest : List Bytes)
    (m : SegmentMeta) (c₁ c₂ : List Bytes) : Prop where
  found : lm.registry.getSegment topic ((frames qs).length : Int) = .ok m
  offset : ((frames qs).length : Int) - m.baseOffset = (frames c₁).length
  chunk : segmentPayloads lm.disk m = c₁ ++ c₂
  whole : WholeRecords lm.disk m
  nonempty : c₂ ≠ []
  follows : c₂ <+: rest

theorem boundary_of_records (shaped : lm.registry.Shaped)
    (recs : ∀ m, lm.registry.Holds m → m.topic = topic → WholeRecords lm.disk m)
    {before after : List SegmentMeta} {m : SegmentMeta} {c₁ c₂ : List Bytes}
    (hget : lm.registry.registry.get? topic = some (before ++ m :: after))
    (hchunk : segmentPayloads lm.disk m = c₁ ++ c₂) (hc : c₂ ≠ []) :
    Boundary lm topic (before.flatMap (segmentPayloads lm.disk) ++ c₁)
      (c₂ ++ after.flatMap (segmentPayloads lm.disk)) m c₁ c₂ := by
  have hrecs : ∀ m' ∈ before ++ m :: after, WholeRecords lm.disk m' := by
    intro m' hm'
    obtain ⟨hold, ht⟩ := shaped.mem_topic hget hm'
    exact recs m' hold ht
  obtain ⟨front, last, start, hshape, hsegs⟩ := shaped _ _ hget
  have hcont : Contiguous 0 (before ++ m :: after) :=
    hshape ▸ (hsegs.run.contiguous hsegs.at_end).1
  have hwhole := hrecs m (by simp)
  have htotal := totalSize_eq_frames fun m' (hm' : m' ∈ before) =>
    hrecs m' (List.mem_append_left _ hm')
  have hbase : m.baseOffset = (totalSize before : Nat) := by simpa using hcont.base_eq
  have hsize := hwhole.size_eq
  have hpos : 0 < (frames c₂).length := List.length_pos_iff.mpr (frames_ne_nil hc)
  have hlen : (frames (before.flatMap (segmentPayloads lm.disk) ++ c₁)).length =
      totalSize before + (frames c₁).length := by
    rw [frames_append, List.length_append, htotal]
  rw [hchunk, frames_append, List.length_append] at hsize
  refine ⟨?_, by omega, hchunk, hwhole, hc, List.prefix_append _ _⟩
  apply SegmentRegistry.getSegment_of_split hget hcont
  · omega
  · rw [SegmentMeta.getEndOffset]
    omega

theorem boundary_of_segment (ok : LogOk lm) (recs : RecordsOk lm)
    {before after : List SegmentMeta} {m : SegmentMeta} {c₁ c₂ : List Bytes}
    (hget : lm.registry.registry.get? topic = some (before ++ m :: after))
    (hchunk : segmentPayloads lm.disk m = c₁ ++ c₂) (hc : c₂ ≠ []) :
    Boundary lm topic (before.flatMap (segmentPayloads lm.disk) ++ c₁)
      (c₂ ++ after.flatMap (segmentPayloads lm.disk)) m c₁ c₂ :=
  boundary_of_records ok.shaped (fun m' hm' _ => recs m' hm') hget hchunk hc

theorem exists_boundary_of_records (shaped : lm.registry.Shaped)
    (recs : ∀ m, lm.registry.Holds m → m.topic = topic → WholeRecords lm.disk m)
    {qs rest : List Bytes} (h : lm.payloads topic = qs ++ rest) (hne : rest ≠ []) :
    ∃ m c₁ c₂, Boundary lm topic qs rest m c₁ c₂ := by
  cases hget : lm.registry.registry.get? topic with
  | none =>
      simp only [LogManager.payloads, hget, Option.getD_none, List.flatMap_nil] at h
      exact absurd (List.append_eq_nil_iff.mp h.symm).2 hne
  | some segs =>
      simp only [LogManager.payloads, hget, Option.getD_some] at h
      obtain ⟨before, m, after, c₁, c₂, rfl, hchunk, hc, rfl, rfl⟩ := flatMap_split _ h hne
      exact ⟨m, c₁, c₂, boundary_of_records shaped recs hget hchunk hc⟩

theorem exists_boundary (ok : LogOk lm) (recs : RecordsOk lm) {qs rest : List Bytes}
    (h : lm.payloads topic = qs ++ rest) (hne : rest ≠ []) :
    ∃ m c₁ c₂, Boundary lm topic qs rest m c₁ c₂ :=
  exists_boundary_of_records ok.shaped (fun m' hm' _ => recs m' hm') h hne

section Batch
variable {qs rest c₁ c₂ : List Bytes} {m : SegmentMeta}

/-- Bytes that start with those in use have the records behind the offset there. -/
theorem Boundary.drop_view (b : Boundary lm topic qs rest m c₁ c₂) {view : Bytes}
    (front : committed lm.disk m <+: view) :
    ∃ junk, view.drop (frames c₁).length = frames c₂ ++ junk := by
  obtain ⟨junk, rfl⟩ := front
  refine ⟨junk, ?_⟩
  rw [← b.whole.frames_eq, b.chunk, frames_append, List.append_assoc, List.drop_left]

theorem Boundary.batchSize_of_prefix (b : Boundary lm topic qs rest m c₁ c₂) {view : Bytes}
    (front : committed lm.disk m <+: view) (size : Int) :
    batchSizeAt view m (frames qs).length size = ((frames (firstBatch size c₂)).length : Nat) := by
  obtain ⟨junk, hview⟩ := b.drop_view front
  have hsize := b.whole.size_eq
  rw [b.chunk, frames_append, List.length_append] at hsize
  have hleft : (m.size : Int) - (frames c₁).length = (frames c₂).length := by omega
  have short : ∀ p ∈ c₂, p.length < 2 ^ 32 := fun p hp =>
    b.whole.short p (by rw [b.chunk]; exact List.mem_append_right _ hp)
  rw [batchSizeAt, b.offset, hleft]
  exact calcReadSize_frames short b.nonempty hview size

theorem Boundary.data_of_prefix (b : Boundary lm topic qs rest m c₁ c₂) {view : Bytes}
    (front : committed lm.disk m <+: view) (size : Int) :
    readView view (((frames qs).length : Int) - m.baseOffset)
      (batchSizeAt view m (frames qs).length size) = frames (firstBatch size c₂) := by
  obtain ⟨junk, hview⟩ := b.drop_view front
  obtain ⟨left, hleft⟩ := firstBatch_isPrefix size c₂
  have hsplit : frames c₂ = frames (firstBatch size c₂) ++ frames left := by
    rw [← frames_append, hleft]
  rw [b.batchSize_of_prefix front, b.offset, readView, slice_of_nat, hview, hsplit,
    List.append_assoc, List.take_left]

/-- A file with records in it is mapped as it is. -/
theorem Boundary.view (b : Boundary lm topic qs rest m c₁ c₂) :
    committed lm.disk m <+: lm.segmentView m := by
  have hbytes := b.whole.frames_eq
  rw [b.chunk, frames_append] at hbytes
  have hne : lm.disk.content m.path ≠ [] := by
    intro hnil
    rw [committed, hnil, List.take_nil] at hbytes
    exact frames_ne_nil b.nonempty (List.append_eq_nil_iff.mp hbytes).2
  rw [LogManager.segmentView, preparedFile_of_ne hne]
  exact List.take_prefix _ _

theorem Boundary.batchSize (b : Boundary lm topic qs rest m c₁ c₂) (size : Int) :
    batchSizeAt (lm.segmentView m) m (frames qs).length size =
      ((frames (firstBatch size c₂)).length : Nat) :=
  b.batchSize_of_prefix b.view size

theorem Boundary.data (b : Boundary lm topic qs rest m c₁ c₂) (size : Int) :
    readView (lm.segmentView m) (((frames qs).length : Int) - m.baseOffset)
      (batchSizeAt (lm.segmentView m) m (frames qs).length size) =
      frames (firstBatch size c₂) :=
  b.data_of_prefix b.view size

end Batch

/-- An append returns the length of the log before it. -/
theorem append_offset (ok : LogOk lm) (recs : RecordsOk lm) {env : CallEnv} {data : Bytes}
    (hops : env.ops = .succeed) (hlen : data.length < 2 ^ 32)
    (clear : ∀ base, lm.opens env.now topic data = some base → ClearOf lm.registry topic base) :
    (lm.append env topic data).2 = .ok ((frames (lm.payloads topic)).length : Int) := by
  obtain ⟨front, m, start, lm', htarget, segs, happ, -⟩ := append_spec ok hops hlen clear
  obtain ⟨hpayloads, hrecs⟩ := appendTarget_payloads ok.shaped
    (fun m hm _ => recs m hm) env.now (4 + data.length) htarget
  rw [happ, ← hpayloads, ← totalSize_eq_frames hrecs, segs.totalSize_eq]

/-- A read at the offset of a payload returns the next payloads, framed, and the
offset behind them. -/
theorem readBytes_at_boundary (ok : LogOk lm) (recs : RecordsOk lm) {env : CallEnv}
    (hops : env.ops = .succeed) {qs rest : List Bytes} (h : lm.payloads topic = qs ++ rest)
    (hne : rest ≠ []) (size : Int) :
    ∃ lm' m got latest, got ≠ [] ∧ got <+: rest ∧
      lm.readBytes env topic (frames qs).length size =
        (lm', .ok ⟨frames got, ((frames (qs ++ got)).length : Int), latest⟩) ∧
      Opened lm lm' m := by
  obtain ⟨m, c₁, c₂, b⟩ := exists_boundary ok recs h hne
  obtain ⟨lm', latest, -, hread, opened⟩ := readBytes_spec ok hops size b.found
  refine ⟨lm', m, firstBatch size c₂, latest, firstBatch_ne_nil size b.nonempty,
    (firstBatch_isPrefix size c₂).trans b.follows, ?_, opened⟩
  rw [hread, b.data, b.batchSize]
  simp

end
end PyLogStream
