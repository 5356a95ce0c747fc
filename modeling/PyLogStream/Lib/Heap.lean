import Mathlib.Data.List.Perm.Basic

/-!
Binary heaps in lists, as `heapq` keeps them: the parent of a position `pos` is at
`(pos - 1) / 2`, and a pushed element changes places with its parents as long as it is less.
Whatever the order, a heap holds what was pushed.
-/

namespace Lib

/-- The element at the position changes places with its parents. The position falls with each
exchange, so it bounds their number. -/
def siftdown {α : Type} (less : α → α → Bool) (heap : List α) (pos : Nat) : Nat → List α
  | 0 => heap
  | exchanges + 1 =>
    let parentpos := (pos - 1) / 2
    match heap[pos]?, heap[parentpos]? with
    | some newitem, some parent =>
      if less newitem parent then
        siftdown less ((heap.set pos parent).set parentpos newitem) parentpos exchanges
      else heap
    | _, _ => heap

def heappush {α : Type} (less : α → α → Bool) (heap : List α) (item : α) : List α :=
  siftdown less (heap ++ [item]) heap.length heap.length

section
variable {α : Type} {less : α → α → Bool}

theorem siftdown_perm (heap : List α) (pos exchanges : Nat) :
    List.Perm (siftdown less heap pos exchanges) heap := by
  induction exchanges generalizing heap pos with
  | zero => exact .refl heap
  | succ exchanges ih =>
      simp only [siftdown]
      split
      · next newitem parent hitem hparent =>
          split
          · refine (ih _ _).trans ?_
            obtain ⟨hpos, rfl⟩ := List.getElem?_eq_some_iff.mp hitem
            obtain ⟨hparentpos, rfl⟩ := List.getElem?_eq_some_iff.mp hparent
            exact List.set_set_perm hpos hparentpos
          · exact .refl heap
      · exact .refl heap

theorem heappush_perm (heap : List α) (item : α) :
    List.Perm (heappush less heap item) (heap ++ [item]) := siftdown_perm _ _ _

theorem mem_heappush {heap : List α} {item a : α} :
    a ∈ heappush less heap item ↔ a ∈ heap ∨ a = item := by
  rw [(heappush_perm heap item).mem_iff, List.mem_append, List.mem_singleton]

end

/-- A heap of five, whose last element goes up to the top. -/
example : heappush (fun a b => decide (a < b)) [2, 4, 3, 7] 1 = [1, 2, 3, 7, 4] := by decide

end Lib
