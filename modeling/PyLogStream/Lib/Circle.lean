import PyLogStream.Lib.Sorted
import Mathlib.Data.List.Perm.Subperm
import Mathlib.Data.List.Rotate

/-!
A circle of sorted keys, read clockwise from a point: the keys above the point, then
those behind the wrap-around. Positions counted from an insertion point modulo the
number of keys visit the keys in this order. Leaving out elements commutes with the
reading, and with keeping the first appearance of each element. A choice from a list
that is topped up with the first elements of the list is as long as it can be.
-/

namespace Lib

section
variable {α : Type} [LinearOrder α]

def clockwise (keys : List α) (point : α) : List α :=
  keys.filter (fun k => decide (point < k)) ++ keys.filter (fun k => decide (k ≤ point))

variable {keys : List α} {point k : α}

theorem mem_clockwise : k ∈ clockwise keys point ↔ k ∈ keys := by
  rw [clockwise, List.mem_append, List.mem_filter, List.mem_filter]
  have hsplit := lt_or_ge point k
  simp only [decide_eq_true_eq]
  tauto

theorem filter_clockwise (p : α → Bool) :
    (clockwise keys point).filter p = clockwise (keys.filter p) point := by
  rw [clockwise, clockwise, List.filter_append, List.filter_comm, List.filter_comm (p := p)]

/-- What is below the insertion point is the keys up to the point. -/
theorem takeWhile_eq_filter (sorted : keys.Pairwise (· < ·)) (point : α) :
    keys.takeWhile (fun k => decide (k ≤ point)) = keys.filter (fun k => decide (k ≤ point)) ∧
      keys.dropWhile (fun k => decide (k ≤ point)) =
        keys.filter (fun k => decide (point < k)) := by
  induction keys with
  | nil => exact ⟨rfl, rfl⟩
  | cons a rest ih =>
      rw [List.pairwise_cons] at sorted
      obtain ⟨ihtake, ihdrop⟩ := ih sorted.2
      by_cases ha : a ≤ point
      · have hnot : ¬ point < a := not_lt.mpr ha
        simp [ha, hnot, ihtake, ihdrop]
      · have habove : ∀ b ∈ rest, point < b := fun b hb => (not_le.mp ha).trans (sorted.1 b hb)
        have hnone : rest.filter (fun k => decide (k ≤ point)) = [] :=
          List.filter_eq_nil_iff.mpr fun b hb => by simpa using habove b hb
        have hall : rest.filter (fun k => decide (point < k)) = rest :=
          List.filter_eq_self.mpr fun b hb => by simpa using habove b hb
        simp [ha, not_le.mp ha, hnone, hall]

theorem clockwise_eq_rotate (sorted : keys.Pairwise (· < ·)) :
    clockwise keys point = keys.rotate (bisectRight keys point) := by
  obtain ⟨htake, hdrop⟩ := takeWhile_eq_filter sorted point
  have hrotate := List.rotate_append_length_eq (keys.takeWhile fun k => decide (k ≤ point))
    (keys.dropWhile fun k => decide (k ≤ point))
  rw [List.takeWhile_append_dropWhile] at hrotate
  rw [bisectRight, hrotate, htake, hdrop, clockwise]

/-- Strictly sorted lists with the same members are the same list. -/
theorem eq_of_sorted_of_mem {keys' : List α} (sorted : keys.Pairwise (· < ·))
    (sorted' : keys'.Pairwise (· < ·)) (h : ∀ k, k ∈ keys ↔ k ∈ keys') : keys = keys' := by
  have hperm : keys.Perm keys' :=
    (List.perm_ext_iff_of_nodup (sorted.imp ne_of_lt) (sorted'.imp ne_of_lt)).mpr h
  exact hperm.eq_of_pairwise (fun _ _ _ _ hab hba => absurd hba (lt_asymm hab)) sorted sorted'

end

section
variable {β : Type}

/-- The positions from `idx` on, modulo the length, read the rotated list. -/
theorem map_wrapped_eq_rotate (l : List β) (idx : Nat) :
    (List.range l.length).map (fun i => l[(idx + i) % l.length]?) =
      (l.rotate idx).map some := by
  refine List.ext_getElem? fun i => ?_
  by_cases hi : i < l.length
  · have hmod : (idx + i) % l.length < l.length := Nat.mod_lt _ (by omega)
    simp [hi, Nat.add_comm i idx, List.getElem?_eq_getElem hmod]
  · simp [hi]

/-- The first of the chosen elements are the chosen ones among the first elements and, behind
them, at most as many others as there are elements among the first that are not chosen. -/
theorem take_filter_eq (p : β → Bool) (l : List β) (n : Nat) :
    ∃ displaced, (l.filter p).take n = (l.take n).filter p ++ displaced ∧
      displaced.length ≤ ((l.take n).filter fun b => !p b).length := by
  have hkept : (l.take n).filter p <+: (l.filter p).take n :=
    List.prefix_take_iff.mpr ⟨(List.take_prefix _ _).filter _,
      (List.length_filter_le _ _).trans (List.length_take_le _ _)⟩
  obtain ⟨displaced, hdisplaced⟩ := hkept
  refine ⟨displaced, hdisplaced.symm, ?_⟩
  have hle : ((l.filter p).take n).length ≤ (l.take n).length := by
    have hfilter := List.length_filter_le p l
    rw [List.length_take, List.length_take]
    omega
  have hsplit := @List.length_eq_length_filter_add _ (l.take n) p
  have hlength := congrArg List.length hdisplaced
  rw [List.length_append] at hlength
  omega

variable [DecidableEq β]

/-- Induction along `List.eraseDups`: the rest without the other copies of its head. -/
theorem eraseDups_induction {motive : List β → Prop} (nil : motive [])
    (cons : ∀ a rest, motive (rest.filter fun b => !b == a) → motive (a :: rest)) (l : List β) :
    motive l := by
  induction hlen : l.length using Nat.strong_induction_on generalizing l with
  | _ n ih =>
      cases l with
      | nil => exact nil
      | cons a rest =>
          have hle := List.length_filter_le (fun b => !b == a) rest
          rw [List.length_cons] at hlen
          exact cons a rest (ih _ (by omega) _ rfl)

theorem nodup_eraseDups (l : List β) : l.eraseDups.Nodup := by
  induction l using eraseDups_induction with
  | nil => simp
  | cons a rest ih =>
      rw [List.eraseDups_cons, List.nodup_cons]
      exact ⟨by simp, ih⟩

/-- The first appearances of what is left are what is left of the first appearances. -/
theorem eraseDups_filter (p : β → Bool) (l : List β) :
    (l.filter p).eraseDups = l.eraseDups.filter p := by
  induction l using eraseDups_induction with
  | nil => rfl
  | cons a rest ih =>
      rw [List.eraseDups_cons]
      by_cases ha : p a = true
      · rw [List.filter_cons_of_pos ha, List.filter_cons_of_pos ha, List.eraseDups_cons,
          List.filter_comm, ih]
      · have hleft : rest.filter p = (rest.filter fun b => !b == a).filter p := by
          rw [List.filter_filter]
          refine List.filter_congr fun b _ => ?_
          by_cases hb : b = a
          · simp [hb, ha]
          · simp [hb]
        rw [List.filter_cons_of_neg ha, List.filter_cons_of_neg ha, hleft, ih]

variable {l chosen : List β}

/-- What is left of a list without repetitions once the chosen ones are taken out. -/
theorem length_le_add_length_filter (nodup : l.Nodup) (chosen : List β) :
    l.length ≤ chosen.length + (l.filter fun b => decide (b ∉ chosen)).length := by
  have hsplit := List.length_eq_length_filter_add (l := l) fun b => decide (b ∈ chosen)
  have hin : (l.filter fun b => decide (b ∈ chosen)).length ≤ chosen.length :=
    (List.Nodup.subperm (nodup.filter _) fun b hb => by
      simpa using (List.mem_filter.mp hb).2).length_le
  simp only [decide_not]
  omega

/-- The first `k` elements suffice to top a choice up to `k` elements. -/
theorem length_topUp (nodup : l.Nodup) (hchosen : chosen.Nodup) (hsub : chosen ⊆ l) {k : Nat}
    (hk : chosen.length ≤ k) :
    (chosen ++ ((l.take k).filter fun b => decide (b ∉ chosen)).take
      (k - chosen.length)).length = min k l.length := by
  have hfew := length_le_add_length_filter (nodup.sublist (List.take_sublist k l)) chosen
  have hall : (chosen ++ (l.take k).filter fun b => decide (b ∉ chosen)).length ≤ l.length := by
    refine List.Subperm.length_le (List.Nodup.subperm ?_ ?_)
    · refine hchosen.append ((nodup.sublist (List.take_sublist k l)).filter _) fun b hb hnew => ?_
      exact (by simpa using (List.mem_filter.mp hnew).2 : b ∉ chosen) hb
    · refine List.append_subset.mpr ⟨hsub, fun b hb => ?_⟩
      exact List.mem_of_mem_take (List.mem_of_mem_filter hb)
  rw [List.length_append] at hall
  rw [List.length_take] at hfew
  rw [List.length_append, List.length_take]
  omega

end
end Lib
