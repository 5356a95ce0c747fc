import Mathlib.Data.List.Nodup
import Mathlib.Data.List.TakeWhile
import Mathlib.Order.Lattice
import Mathlib.Tactic.Common

/-!
Lists whose elements carry strictly increasing keys. The key determines the element;
an element may be removed, or replaced by one with its key, or a new one put at the
end above all others. A key divides the list into the elements up to it and those
above it, and the last of the former is what a search for the key can find.
-/

namespace Lib

section
variable {α β : Type} [LinearOrder β]

def KeysIncrease (key : α → β) (l : List α) : Prop := l.Pairwise fun a b => key a < key b

instance (key : α → β) (l : List α) : Decidable (KeysIncrease key l) :=
  inferInstanceAs (Decidable (l.Pairwise fun a b => key a < key b))

variable {key : α → β} {front back l : List α} {a b : α}

namespace KeysIncrease

theorem nil : KeysIncrease key [] := List.Pairwise.nil

theorem singleton (a : α) : KeysIncrease key [a] := List.pairwise_singleton _ a

theorem eq_of_key (h : KeysIncrease key l) (ha : a ∈ l) (hb : b ∈ l) (heq : key a = key b) :
    a = b := by
  have hnodup : (l.map key).Nodup := List.pairwise_map.mpr (h.imp fun hlt => ne_of_lt hlt)
  exact List.inj_on_of_nodup_map hnodup ha hb heq

theorem append_above (h : KeysIncrease key front) (above : ∀ a ∈ front, key a < key b) :
    KeysIncrease key (front ++ [b]) := by
  refine List.pairwise_append.mpr ⟨h, List.pairwise_singleton _ b, fun a ha c hc => ?_⟩
  rw [List.mem_singleton.mp hc]
  exact above a ha

theorem front_below (h : KeysIncrease key (front ++ a :: back)) (hb : b ∈ front) :
    key b < key a :=
  (List.pairwise_append.mp h).2.2 b hb a List.mem_cons_self

theorem back_above (h : KeysIncrease key (front ++ a :: back)) (hb : b ∈ back) :
    key a < key b :=
  (List.pairwise_cons.mp (List.pairwise_append.mp h).2.1).1 b hb

theorem remove (h : KeysIncrease key (front ++ a :: back)) : KeysIncrease key (front ++ back) :=
  h.sublist (List.Sublist.append_left (List.sublist_cons_self a back) front)

theorem replace (h : KeysIncrease key (front ++ a :: back)) (hkey : key b = key a) :
    KeysIncrease key (front ++ b :: back) := by
  have hkeys : (front ++ b :: back).map key = (front ++ a :: back).map key := by simp [hkey]
  have hmap : ((front ++ a :: back).map key).Pairwise (· < ·) := List.pairwise_map.mpr h
  rw [← hkeys] at hmap
  exact List.pairwise_map.mp hmap

/-- The elements up to a key and those above it. -/
theorem split_at (h : KeysIncrease key l) (k : β) :
    ∃ below above, l = below ++ above ∧ (∀ a ∈ below, key a ≤ k) ∧ ∀ a ∈ above, k < key a := by
  induction l with
  | nil => exact ⟨[], [], rfl, by simp, by simp⟩
  | cons a rest ih =>
      obtain ⟨hfirst, hrest⟩ := List.pairwise_cons.mp h
      by_cases hle : key a ≤ k
      · obtain ⟨below, above, rfl, hbelow, habove⟩ := ih hrest
        refine ⟨a :: below, above, rfl, fun b hb => ?_, habove⟩
        rcases List.mem_cons.mp hb with rfl | hmem
        · exact hle
        · exact hbelow b hmem
      · refine ⟨[], a :: rest, rfl, by simp, fun b hb => ?_⟩
        have hlt : k < key a := not_le.mp hle
        rcases List.mem_cons.mp hb with rfl | hmem
        · exact hlt
        · exact hlt.trans (hfirst b hmem)

/-- The elements below the key of an element are those before it. -/
theorem takeWhile_below (h : KeysIncrease key (front ++ a :: back)) :
    (front ++ a :: back).takeWhile (fun b => decide (key b < key a)) = front := by
  have hall : ∀ b ∈ front, decide (key b < key a) = true := fun b hb => by
    simpa using h.front_below hb
  rw [List.takeWhile_append_of_pos hall, List.takeWhile_cons_of_neg (by simp), List.append_nil]

end KeysIncrease
end

theorem set_length_append {α : Type} (front back : List α) (a b : α) :
    (front ++ a :: back).set front.length b = front ++ b :: back := by
  simp

theorem eraseIdx_length_append {α : Type} (front back : List α) (a : α) :
    (front ++ a :: back).eraseIdx front.length = front ++ back := by
  rw [List.eraseIdx_append_of_length_le (le_refl _), Nat.sub_self, List.eraseIdx_cons_zero]

/-- The list at a position: what stands before it, there and behind it. -/
theorem split_of_getElem? {α : Type} {l : List α} {i : Nat} {a : α} (h : l[i]? = some a) :
    ∃ front back, l = front ++ a :: back ∧ front.length = i := by
  obtain ⟨hlt, rfl⟩ := List.getElem?_eq_some_iff.mp h
  exact ⟨l.take i, l.drop (i + 1), (List.take_append_drop i l).symm.trans (by simp), by simp; omega⟩

end Lib
