import Mathlib.Data.List.Nodup
import Mathlib.Logic.Function.Basic
import Mathlib.Order.Nat
import Mathlib.Tactic.Common

/-!
Mutable objects. An object is named by its place in the order of creation, so that
several holders can name the same object and a change made through one of them is seen
by all. A place that is not taken yet holds an arbitrary value.
-/

namespace Lib

structure Objects (α : Type) where
  /-- How many objects there are. -/
  next : Nat
  value : Nat → α

namespace Objects
variable {α : Type}

def empty (a : α) : Objects α := ⟨0, fun _ => a⟩

def write (o : Objects α) (ref : Nat) (a : α) : Objects α :=
  { o with value := Function.update o.value ref a }

def create (o : Objects α) (a : α) : Objects α × Nat :=
  ({ o.write o.next a with next := o.next + 1 }, o.next)

def createAll (o : Objects α) : List α → Objects α × List Nat
  | [] => (o, [])
  | a :: rest =>
    let (o, ref) := o.create a
    let (o, refs) := createAll o rest
    (o, ref :: refs)

section
variable {o o' : Objects α} {a b : α} {ref other : Nat}

@[simp]
theorem write_next : (o.write ref a).next = o.next := rfl

@[simp]
theorem write_value_self : (o.write ref a).value ref = a := Function.update_self ..

theorem write_value_of_ne (h : other ≠ ref) : (o.write ref a).value other = o.value other :=
  Function.update_of_ne h ..

@[simp]
theorem write_write : (o.write ref a).write ref b = o.write ref b := by
  simp [write, Function.update_idem]

theorem write_self (h : o.value ref = a) : o.write ref a = o := by
  simp [write, ← h]

/-- The objects of the one are objects of the other, with their values. -/
structure Grows (o o' : Objects α) : Prop where
  next : o.next ≤ o'.next
  value : ∀ ref < o.next, o'.value ref = o.value ref

theorem Grows.refl (o : Objects α) : Grows o o := ⟨le_rfl, fun _ _ => rfl⟩

theorem Grows.trans {o'' : Objects α} (h : Grows o o') (h' : Grows o' o'') : Grows o o'' :=
  ⟨h.next.trans h'.next, fun ref href =>
    (h'.value ref (lt_of_lt_of_le href h.next)).trans (h.value ref href)⟩

theorem grows_create (o : Objects α) (a : α) : Grows o (o.create a).1 :=
  ⟨Nat.le_succ _, fun _ href => write_value_of_ne (Nat.ne_of_lt href)⟩

/-- All the objects are new and different, and have the values in their order. -/
theorem createAll_spec (o : Objects α) (values : List α) :
    Grows o (o.createAll values).1 ∧
      (o.createAll values).2.map (o.createAll values).1.value = values ∧
      (o.createAll values).2.Nodup ∧
      ∀ ref ∈ (o.createAll values).2, o.next ≤ ref ∧ ref < (o.createAll values).1.next := by
  induction values generalizing o with
  | nil => exact ⟨.refl o, rfl, List.nodup_nil, fun ref href => absurd href List.not_mem_nil⟩
  | cons a rest ih =>
      obtain ⟨grows, hvalues, nodup, hnew⟩ := ih (o.create a).1
      have hlast : o.next < (o.create a).1.next := Nat.lt_succ_self _
      refine ⟨(grows_create o a).trans grows, ?_, ?_, ?_⟩
      · change ((o.create a).1.createAll rest).1.value o.next ::
          ((o.create a).1.createAll rest).2.map ((o.create a).1.createAll rest).1.value = a :: rest
        rw [hvalues, grows.value _ hlast]
        exact congrArg (· :: rest) write_value_self
      · refine List.nodup_cons.mpr ⟨fun hmem => ?_, nodup⟩
        exact absurd (hnew _ hmem).1 (Nat.not_le_of_lt hlast)
      · intro ref href
        rcases List.mem_cons.mp href with rfl | hrest
        · exact ⟨le_rfl, lt_of_lt_of_le hlast grows.next⟩
        · exact ⟨hlast.le.trans (hnew ref hrest).1, (hnew ref hrest).2⟩

end
end Objects
end Lib
