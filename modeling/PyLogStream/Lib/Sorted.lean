import Mathlib.Data.List.TakeWhile
import Mathlib.Order.Lattice
import Mathlib.Tactic.Common

/-!
Sorted lists searched by bisection: the insertion points `bisect_left` and
`bisect_right`, insertion after equal elements, and removal of an element at its
insertion point. On a strictly sorted list the last two are the set operations.
-/

namespace Lib

section
variable {α : Type} [LinearOrder α]

def bisectLeft (keys : List α) (key : α) : Nat := (keys.takeWhile (fun k => decide (k < key))).length

def bisectRight (keys : List α) (key : α) : Nat :=
  (keys.takeWhile (fun k => decide (k ≤ key))).length

/-- Insert a key at `bisectRight`. -/
def insort (keys : List α) (key : α) : List α :=
  keys.takeWhile (fun k => decide (k ≤ key)) ++ key :: keys.dropWhile (fun k => decide (k ≤ key))

/-- Remove a key at `bisectLeft`, if it is there. -/
def popSorted (keys : List α) (key : α) : List α :=
  if keys[bisectLeft keys key]? = some key then keys.eraseIdx (bisectLeft keys key) else keys

variable {keys : List α} {key k : α}

theorem mem_insort : k ∈ insort keys key ↔ k = key ∨ k ∈ keys := by
  have hsplit : k ∈ keys ↔ k ∈ keys.takeWhile (fun k => decide (k ≤ key)) ∨
      k ∈ keys.dropWhile (fun k => decide (k ≤ key)) := by
    rw [← List.mem_append, List.takeWhile_append_dropWhile]
  rw [insort, List.mem_append, List.mem_cons, hsplit]
  tauto

theorem insort_perm (keys : List α) (key : α) : (insort keys key).Perm (key :: keys) := by
  have hmiddle : (insort keys key).Perm (key :: (keys.takeWhile (fun k => decide (k ≤ key)) ++
      keys.dropWhile (fun k => decide (k ≤ key)))) := List.perm_middle
  rwa [List.takeWhile_append_dropWhile] at hmiddle

theorem bisectRight_le : bisectRight keys key ≤ keys.length :=
  (List.takeWhile_prefix _).length_le

theorem lt_of_mem_dropWhile (sorted : keys.Pairwise (· < ·))
    (h : k ∈ keys.dropWhile (fun k => decide (k ≤ key))) : key < k := by
  induction keys with
  | nil => simp at h
  | cons a rest ih =>
      rw [List.pairwise_cons] at sorted
      by_cases ha : a ≤ key
      · rw [List.dropWhile_cons_of_pos (by simpa using ha)] at h
        exact ih sorted.2 h
      · rw [List.dropWhile_cons_of_neg (by simpa using ha)] at h
        have hkey : key < a := not_le.mp ha
        rcases List.mem_cons.mp h with rfl | hrest
        · exact hkey
        · exact hkey.trans (sorted.1 k hrest)

theorem insort_sorted (sorted : keys.Pairwise (· < ·)) (h : key ∉ keys) :
    (insort keys key).Pairwise (· < ·) := by
  have hbelow : ∀ a ∈ keys.takeWhile (fun k => decide (k ≤ key)), a < key := by
    intro a ha
    have hle : a ≤ key := by simpa using List.mem_takeWhile_imp ha
    refine lt_of_le_of_ne hle ?_
    rintro rfl
    exact h ((List.takeWhile_sublist _).subset ha)
  have habove : ∀ b ∈ keys.dropWhile (fun k => decide (k ≤ key)), key < b :=
    fun b hb => lt_of_mem_dropWhile sorted hb
  refine List.pairwise_append.mpr ⟨sorted.sublist (List.takeWhile_sublist _),
    List.pairwise_cons.mpr ⟨habove, sorted.sublist (List.dropWhile_sublist _)⟩, ?_⟩
  intro a ha b hb
  rcases List.mem_cons.mp hb with rfl | hdrop
  · exact hbelow a ha
  · exact (hbelow a ha).trans (habove b hdrop)

theorem mem_popSorted_of_ne (h : k ∈ keys) (hne : k ≠ key) : k ∈ popSorted keys key := by
  simp only [popSorted]
  split
  · next hat =>
      obtain ⟨i, hi⟩ := List.mem_iff_getElem?.mp h
      refine List.mem_eraseIdx_iff_getElem?.mpr ⟨i, ?_, hi⟩
      rintro rfl
      exact hne (Option.some.inj (hi.symm.trans hat))
  · exact h

theorem popSorted_eq_filter (sorted : keys.Pairwise (· < ·)) :
    popSorted keys key = keys.filter (fun k => decide (k ≠ key)) := by
  induction keys with
  | nil => rfl
  | cons a rest ih =>
      rw [List.pairwise_cons] at sorted
      by_cases ha : a < key
      · have hidx : bisectLeft (a :: rest) key = bisectLeft rest key + 1 := by
          simp [bisectLeft, ha]
        rw [List.filter_cons_of_pos (by simpa using ne_of_lt ha), ← ih sorted.2]
        simp only [popSorted, hidx, List.getElem?_cons_succ, List.eraseIdx_cons_succ]
        split <;> rfl
      · have hidx : bisectLeft (a :: rest) key = 0 := by
          simp [bisectLeft, ha]
        have hrest : rest.filter (fun k => decide (k ≠ key)) = rest := by
          refine List.filter_eq_self.mpr fun k hk => ?_
          have hlt := sorted.1 k hk
          simpa using ne_of_gt (lt_of_le_of_lt (not_lt.mp ha) hlt)
        rw [popSorted, hidx, List.getElem?_cons_zero]
        by_cases heq : a = key
        · rw [if_pos (congrArg some heq), List.eraseIdx_cons_zero,
            List.filter_cons_of_neg (by simpa using heq), hrest]
        · rw [if_neg (fun h => heq (Option.some.inj h)),
            List.filter_cons_of_pos (by simpa using heq), hrest]

/-- On a list that puts what passes the test first, the first elements that pass are
all that pass. -/
theorem mem_takeWhile_of_pairwise {β : Type} {R : β → β → Prop} {p : β → Bool} {l : List β}
    (sorted : l.Pairwise R) (passes : ∀ a b, R a b → p b = true → p a = true) {a : β} :
    a ∈ l.takeWhile p ↔ a ∈ l ∧ p a = true := by
  induction l with
  | nil => simp
  | cons b rest ih =>
      rw [List.pairwise_cons] at sorted
      by_cases hb : p b = true
      · rw [List.takeWhile_cons_of_pos hb, List.mem_cons, List.mem_cons, ih sorted.2]
        constructor
        · rintro (rfl | ⟨hrest, ha⟩)
          · exact ⟨Or.inl rfl, hb⟩
          · exact ⟨Or.inr hrest, ha⟩
        · rintro ⟨rfl | hrest, ha⟩
          · exact Or.inl rfl
          · exact Or.inr ⟨hrest, ha⟩
      · rw [List.takeWhile_cons_of_neg hb, List.mem_cons]
        refine iff_of_false List.not_mem_nil ?_
        rintro ⟨rfl | hrest, ha⟩
        · exact hb ha
        · exact hb (passes b a (sorted.1 a hrest) ha)

end
end Lib
