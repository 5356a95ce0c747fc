import Mathlib.Data.List.Basic
import Mathlib.Tactic.Common
import Mathlib.Tactic.Ring

/-!
Byte strings with the slicing conventions of a dynamic language: indices may be
negative or out of range, and a slice is clipped instead of failing. Lengths are
written as four-byte big-endian prefixes.
-/

namespace Lib

abbrev Bytes := List UInt8

/-- Position denoted by a possibly negative slice bound. -/
def sliceIndex (len : Nat) (i : Int) : Nat :=
  if i < 0 then (i + len).toNat else min i.toNat len

def slice {α : Type} (xs : List α) (a b : Int) : List α :=
  (xs.drop (sliceIndex xs.length a)).take (sliceIndex xs.length b - sliceIndex xs.length a)

/-- Position denoted by a possibly negative index; out of range is an error. -/
def listIndex (len : Nat) (i : Int) : Option Nat :=
  if 0 ≤ i then (if i.toNat < len then some i.toNat else none)
  else if -(len : Int) ≤ i then some (i + len).toNat else none

/-- Split a concatenation inside the part that contains a position. -/
theorem flatMap_split {α β : Type} (f : α → List β) {xs : List α} {qs rest : List β}
    (h : xs.flatMap f = qs ++ rest) (hne : rest ≠ []) :
    ∃ before x after c₁ c₂, xs = before ++ x :: after ∧ f x = c₁ ++ c₂ ∧ c₂ ≠ [] ∧
      qs = before.flatMap f ++ c₁ ∧ rest = c₂ ++ after.flatMap f := by
  induction xs generalizing qs with
  | nil =>
      have : rest = [] := (List.append_eq_nil_iff.mp h.symm).2
      exact absurd this hne
  | cons x xs ih =>
      have later : ∀ qs', xs.flatMap f = qs' ++ rest → qs = f x ++ qs' →
          ∃ before y after c₁ c₂, x :: xs = before ++ y :: after ∧ f y = c₁ ++ c₂ ∧ c₂ ≠ [] ∧
            qs = before.flatMap f ++ c₁ ∧ rest = c₂ ++ after.flatMap f := by
        intro qs' htail hqs
        obtain ⟨before, y, after, c₁, c₂, rfl, hy, hc, rfl, hrest⟩ := ih htail
        exact ⟨x :: before, y, after, c₁, c₂, rfl, hy, hc, by simp [hqs], hrest⟩
      rw [List.flatMap_cons] at h
      rcases List.append_eq_append_iff.mp h with ⟨as, hqs, htail⟩ | ⟨bs, hx, hrest⟩
      · exact later as htail hqs
      · by_cases hbs : bs = []
        · subst hbs
          exact later [] (by simpa using hrest.symm) (by simpa using hx.symm)
        · exact ⟨[], x, xs, qs, bs, rfl, hx, hbs, rfl, hrest⟩

theorem slice_of_nat {α : Type} (xs : List α) (a n : Nat) :
    slice xs a ((a : Int) + n) = (xs.drop a).take n := by
  have ha : sliceIndex xs.length (a : Int) = min a xs.length := by
    simp [sliceIndex]
  have hb : sliceIndex xs.length ((a : Int) + n) = min (a + n) xs.length := by
    have h0 : ¬ ((a : Int) + n < 0) := by omega
    have hn : ((a : Int) + n).toNat = a + n := by omega
    simp [sliceIndex, h0, hn]
  rw [slice, ha, hb]
  by_cases hlen : a ≤ xs.length
  · rw [Nat.min_eq_left hlen]
    apply List.ext_getElem
    · simp only [List.length_take, List.length_drop]
      omega
    · intro i h1 h2
      simp
  · have h1 : xs.drop (min a xs.length) = [] := by simp; omega
    have h2 : xs.drop a = [] := by simp; omega
    simp [h1, h2]

/-- Overwrite part of a byte string in place, starting at an offset. -/
def splice (xs : Bytes) (off : Nat) (msg : Bytes) : Bytes :=
  xs.take off ++ msg ++ xs.drop (off + msg.length)

theorem splice_length {xs : Bytes} {off : Nat} {msg : Bytes}
    (h : off + msg.length ≤ xs.length) : (splice xs off msg).length = xs.length := by
  simp only [splice, List.length_append, List.length_take, List.length_drop]
  omega

theorem splice_take_end {xs : Bytes} {off : Nat} {msg : Bytes} (h : off ≤ xs.length) :
    (splice xs off msg).take (off + msg.length) = xs.take off ++ msg := by
  have hlen : (xs.take off ++ msg).length = off + msg.length := by
    simp [Nat.min_eq_left h]
  rw [splice, ← hlen, List.take_left]

def zeros (n : Nat) : Bytes := List.replicate n 0

@[simp]
theorem zeros_length (n : Nat) : (zeros n).length = n := by simp [zeros]

/-- Value of a big-endian byte string of any length; the empty string is zero. -/
def ofBigEndian (bs : Bytes) : Nat := bs.foldl (fun acc b => acc * 256 + b.toNat) 0

theorem ofBigEndian_append (xs ys : Bytes) :
    ofBigEndian (xs ++ ys) = ofBigEndian xs * 256 ^ ys.length + ofBigEndian ys := by
  have shift : ∀ (bs : Bytes) (acc : Nat),
      bs.foldl (fun acc b => acc * 256 + b.toNat) acc =
        acc * 256 ^ bs.length + bs.foldl (fun acc b => acc * 256 + b.toNat) 0 := by
    intro bs
    induction bs with
    | nil => simp
    | cons b bs ih =>
        intro acc
        rw [List.foldl_cons, ih, List.foldl_cons, ih (0 * 256 + b.toNat), List.length_cons, pow_succ]
        ring
  rw [ofBigEndian, List.foldl_append, shift]
  rfl

/-- The four low-order bytes of a number, most significant first. -/
def bigEndian32 (n : Nat) : Bytes :=
  [UInt8.ofNat (n / 256 ^ 3), UInt8.ofNat (n / 256 ^ 2), UInt8.ofNat (n / 256), UInt8.ofNat n]

@[simp]
theorem bigEndian32_length (n : Nat) : (bigEndian32 n).length = 4 := rfl

theorem ofBigEndian_bigEndian32 {n : Nat} (h : n < 2 ^ 32) :
    ofBigEndian (bigEndian32 n) = n := by
  simp only [ofBigEndian, bigEndian32, List.foldl, UInt8.toNat_ofNat', Nat.reducePow]
  omega

/-- A payload behind its own length. -/
def frame (p : Bytes) : Bytes := bigEndian32 p.length ++ p

def frames (ps : List Bytes) : Bytes := ps.flatMap frame

@[simp]
theorem frame_length (p : Bytes) : (frame p).length = 4 + p.length := by simp [frame]

@[simp]
theorem frames_nil : frames [] = [] := rfl

@[simp]
theorem frames_cons (p : Bytes) (ps : List Bytes) : frames (p :: ps) = frame p ++ frames ps := by
  simp [frames]

@[simp]
theorem frames_append (ps qs : List Bytes) : frames (ps ++ qs) = frames ps ++ frames qs := by
  simp [frames]

theorem frames_length (ps : List Bytes) :
    (frames ps).length = (ps.map fun p => 4 + p.length).sum := by
  induction ps with
  | nil => rfl
  | cons p ps ih => simp [ih]

theorem frame_take_four (p rest : Bytes) : (frame p ++ rest).take 4 = bigEndian32 p.length := by
  have h : (bigEndian32 p.length).length = 4 := rfl
  rw [frame, List.append_assoc, ← h, List.take_left]

theorem frame_drop_four (p rest : Bytes) : (frame p ++ rest).drop 4 = p ++ rest := by
  have h : (bigEndian32 p.length).length = 4 := rfl
  rw [frame, List.append_assoc, ← h, List.drop_left]

theorem frames_ne_nil {ps : List Bytes} (h : ps ≠ []) : frames ps ≠ [] := by
  cases ps with
  | nil => exact absurd rfl h
  | cons p ps => simp [frame, bigEndian32]

theorem frames_flatMap {α : Type} (f : α → List Bytes) (xs : List α) :
    frames (xs.flatMap f) = xs.flatMap fun x => frames (f x) := by
  induction xs with
  | nil => rfl
  | cons x xs ih => simp [ih]

/-- The longest sequence of leading payloads whose frames fit into `max` bytes. -/
def framesWithin (max : Int) : List Bytes → List Bytes
  | [] => []
  | p :: ps =>
    if ((frame p).length : Int) ≤ max then p :: framesWithin (max - (frame p).length) ps else []

/-- The payloads of one batch: those that fit, but at least the first one. -/
def firstBatch (max : Int) (ps : List Bytes) : List Bytes :=
  if framesWithin max ps = [] then ps.take 1 else framesWithin max ps

theorem framesWithin_isPrefix (max : Int) (ps : List Bytes) : framesWithin max ps <+: ps := by
  induction ps generalizing max with
  | nil => exact List.prefix_rfl
  | cons p ps ih =>
      unfold framesWithin
      split
      · exact (List.prefix_cons_inj p).mpr (ih _)
      · exact List.nil_prefix

theorem framesWithin_length_le {max : Int} (h : 0 ≤ max) (ps : List Bytes) :
    ((frames (framesWithin max ps)).length : Int) ≤ max := by
  induction ps generalizing max with
  | nil => simpa [framesWithin] using h
  | cons p ps ih =>
      unfold framesWithin
      split
      · next hfit =>
          have hrest : 0 ≤ max - (frame p).length := by omega
          have := ih hrest
          simp only [frames_cons, List.length_append]
          omega
      · simpa using h

/-- A bound beyond the end of the payloads is no bound. -/
theorem framesWithin_min (max : Int) (ps : List Bytes) :
    framesWithin (min max (frames ps).length) ps = framesWithin max ps := by
  induction ps generalizing max with
  | nil => rfl
  | cons p ps ih =>
      simp only [framesWithin, frames_cons, List.length_append]
      by_cases hfit : ((frame p).length : Int) ≤ max
      · have hmin : min max (((frame p).length + (frames ps).length : Nat) : Int) -
            (frame p).length = min (max - (frame p).length) (frames ps).length := by omega
        rw [if_pos hfit, if_pos (by omega), hmin, ih]
      · rw [if_neg hfit, if_neg (by omega)]

/-- No longer sequence of leading payloads fits. -/
theorem framesWithin_maximal {max : Int} {ps t : List Bytes} (h : t <+: ps)
    (hfit : ((frames t).length : Int) ≤ max) : t <+: framesWithin max ps := by
  induction ps generalizing max t with
  | nil =>
      rw [List.prefix_nil.mp h]
      exact List.nil_prefix
  | cons p ps ih =>
      cases t with
      | nil => exact List.nil_prefix
      | cons q t =>
          obtain ⟨rfl, htail⟩ := List.cons_prefix_cons.mp h
          simp only [frames_cons, List.length_append] at hfit
          rw [framesWithin, if_pos (by omega)]
          exact List.cons_prefix_cons.mpr ⟨rfl, ih htail (by omega)⟩

theorem frames_length_le_of_isPrefix {s t : List Bytes} (h : s <+: t) :
    (frames s).length ≤ (frames t).length := by
  obtain ⟨rest, rfl⟩ := h
  simp

theorem firstBatch_isPrefix (max : Int) (ps : List Bytes) : firstBatch max ps <+: ps := by
  unfold firstBatch
  split
  · exact List.take_prefix 1 ps
  · exact framesWithin_isPrefix max ps

theorem firstBatch_ne_nil (max : Int) {ps : List Bytes} (h : ps ≠ []) :
    firstBatch max ps ≠ [] := by
  unfold firstBatch
  split
  · simpa using h
  · assumption

theorem firstBatch_maximal {max : Int} {ps t : List Bytes} (h : t <+: ps)
    (hfit : ((frames t).length : Int) ≤ max) : t <+: firstBatch max ps := by
  have hwithin := framesWithin_maximal h hfit
  rw [firstBatch]
  by_cases hnil : framesWithin max ps = []
  · rw [hnil] at hwithin
    rw [List.prefix_nil.mp hwithin]
    exact List.nil_prefix
  · rw [if_neg hnil]
    exact hwithin

/-- Only a first payload that does not fit makes a batch longer than `max`. -/
theorem firstBatch_fits_or_first (max : Int) {ps : List Bytes} (hne : ps ≠ []) :
    ((frames (firstBatch max ps)).length : Int) ≤ max ∨
      firstBatch max ps = ps.take 1 ∧ max < (frames (firstBatch max ps)).length := by
  cases ps with
  | nil => exact absurd rfl hne
  | cons p qs =>
      by_cases hfit : ((frame p).length : Int) ≤ max
      · have hsome : framesWithin max (p :: qs) ≠ [] := by
          rw [framesWithin, if_pos hfit]
          exact List.cons_ne_nil _ _
        left
        rw [firstBatch, if_neg hsome]
        exact framesWithin_length_le (by omega) _
      · have hnone : framesWithin max (p :: qs) = [] := by simp only [framesWithin, if_neg hfit]
        have hfirst : firstBatch max (p :: qs) = [p] := by
          rw [firstBatch, if_pos hnone, List.take_succ_cons, List.take_zero]
        right
        rw [hfirst]
        exact ⟨rfl, by simpa using hfit⟩

/-- A batch stays below a bound exactly if its first payload does and so does
every sequence of leading payloads that fits. -/
theorem firstBatch_length_le_iff (max bound : Int) (p : Bytes) (ps : List Bytes) :
    ((frames (firstBatch max (p :: ps))).length : Int) ≤ bound ↔
      ((frame p).length : Int) ≤ bound ∧ ∀ t, t <+: p :: ps →
        ((frames t).length : Int) ≤ max → ((frames t).length : Int) ≤ bound := by
  have hfirst : [p] <+: firstBatch max (p :: ps) := by
    obtain ⟨rest, hrest⟩ := firstBatch_isPrefix max (p :: ps)
    cases hbatch : firstBatch max (p :: ps) with
    | nil => exact absurd hbatch (firstBatch_ne_nil max (List.cons_ne_nil p ps))
    | cons q qs =>
        rw [hbatch, List.cons_append] at hrest
        rw [(List.cons.inj hrest).1]
        exact List.cons_prefix_cons.mpr ⟨rfl, List.nil_prefix⟩
  have hsingle : (frames [p]).length = (frame p).length := by simp
  constructor
  · intro h
    refine ⟨?_, ?_⟩
    · have := frames_length_le_of_isPrefix hfirst
      omega
    · intro t ht hfit
      have := frames_length_le_of_isPrefix (firstBatch_maximal ht hfit)
      omega
  · rintro ⟨hp, hall⟩
    rw [firstBatch]
    split
    · simpa using hp
    · next hne =>
        have hmax : 0 ≤ max := by
          by_contra hneg
          apply hne
          rw [framesWithin, if_neg (by omega)]
        exact hall _ (framesWithin_isPrefix max _) (framesWithin_length_le hmax _)

end Lib
