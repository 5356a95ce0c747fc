import Mathlib.Tactic.Common

/-!
Which errors a computation may end with, and which values it may return. A sequence of two
computations ends with allowed errors only if the first does and so does the second on every
value that the first returns; a computation over a list is a sequence of one for each element.
What a sequence returns is what the second computation returns.
-/

namespace Lib

/-- If the computation raises, then an error that is allowed. -/
def RaisesOnly {ε α : Type} (allowed : ε → Prop) (x : Except ε α) : Prop :=
  ∀ err, x = .error err → allowed err

/-- If the computation returns, then a value that is allowed. -/
def ReturnsOnly {ε α : Type} (allowed : α → Prop) (x : Except ε α) : Prop :=
  ∀ a, x = .ok a → allowed a

section
variable {ε α β : Type} {allowed : ε → Prop}

@[simp]
theorem raisesOnly_pure (a : α) : RaisesOnly allowed (pure a) := by
  intro err h
  cases h

@[simp]
theorem raisesOnly_ok (a : α) : RaisesOnly allowed (.ok a) := raisesOnly_pure a

@[simp]
theorem raisesOnly_error_iff {err : ε} :
    RaisesOnly allowed (.error err : Except ε α) ↔ allowed err := by
  constructor
  · intro h
    exact h err rfl
  · intro h other heq
    cases heq
    exact h

@[simp]
theorem raisesOnly_throw_iff {err : ε} :
    RaisesOnly allowed (throw err : Except ε α) ↔ allowed err := raisesOnly_error_iff

theorem raisesOnly_bind_iff {x : Except ε α} {f : α → Except ε β} :
    RaisesOnly allowed (x >>= f) ↔
      RaisesOnly allowed x ∧ ∀ a, x = .ok a → RaisesOnly allowed (f a) := by
  cases x with
  | error err =>
      change RaisesOnly allowed (.error err) ↔ _
      simp
  | ok a =>
      change RaisesOnly allowed (f a) ↔ _
      simp

/-- The second computation decides if the first raises what is allowed. -/
theorem RaisesOnly.bind_iff {x : Except ε α} (h : RaisesOnly allowed x) {f : α → Except ε β} :
    RaisesOnly allowed (x >>= f) ↔ ∀ a, x = .ok a → RaisesOnly allowed (f a) := by
  rw [raisesOnly_bind_iff]
  exact and_iff_right h

theorem raisesOnly_mapM_cons_iff {f : α → Except ε β} {x : α} {xs : List α} :
    RaisesOnly allowed ((x :: xs).mapM f) ↔
      RaisesOnly allowed (f x) ∧ ∀ y, f x = .ok y → RaisesOnly allowed (xs.mapM f) := by
  rw [List.mapM_cons, raisesOnly_bind_iff]
  refine and_congr_right fun _ => forall₂_congr fun y _ => ?_
  rw [raisesOnly_bind_iff]
  simp

theorem ReturnsOnly.ite {good : α → Prop} {x y : Except ε α} {p : Prop} [Decidable p]
    (h : p → ReturnsOnly good x) (h' : ¬ p → ReturnsOnly good y) :
    ReturnsOnly good (if p then x else y) := by
  split
  · next hp => exact h hp
  · next hp => exact h' hp

theorem ReturnsOnly.bind {good : β → Prop} {x : Except ε α} {f : α → Except ε β}
    (h : ∀ a, ReturnsOnly good (f a)) : ReturnsOnly good (x >>= f) := by
  cases x with
  | error err =>
      intro b hb
      cases hb
  | ok a => exact h a

theorem returnsOnly_pure {good : α → Prop} {a : α} (h : good a) :
    ReturnsOnly good (pure a : Except ε α) := by
  intro b hb
  cases hb
  exact h

theorem returnsOnly_throw {good : α → Prop} (err : ε) :
    ReturnsOnly good (throw err : Except ε α) := by
  intro b hb
  cases hb

theorem returns_bind_iff {x : Except ε α} {f : α → Except ε β} :
    (∃ b, x >>= f = .ok b) ↔ ∃ a, x = .ok a ∧ ∃ b, f a = .ok b := by
  cases x with
  | error err =>
      change (∃ b, (.error err : Except ε β) = .ok b) ↔ _
      simp
  | ok a =>
      change (∃ b, f a = .ok b) ↔ _
      simp

end
end Lib
