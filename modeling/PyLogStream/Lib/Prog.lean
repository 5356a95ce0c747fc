import Mathlib.Tactic.Common

/-!
Programs that make calls to a service. A program is the tree of what it does next
for every answer; a service is a handler that takes a state and a call to a new
state and an answer or an exception. Running a program against a handler and
translating its calls into programs over another service are the two ways to
give a program a meaning.
-/

namespace Lib

/-- A program whose calls have the answer types `Res` and whose exceptions are in `ε`. -/
inductive Prog (Call : Type) (Res : Call → Type) (ε α : Type) where
  | pure (a : α)
  | raise (err : ε)
  | call (c : Call) (next : Res c → Prog Call Res ε α)

namespace Prog
variable {Call : Type} {Res : Call → Type} {ε α β σ : Type}

def bind : Prog Call Res ε α → (α → Prog Call Res ε β) → Prog Call Res ε β
  | .pure a, f => f a
  | .raise err, _ => .raise err
  | .call c next, f => .call c fun r => (next r).bind f

instance : Monad (Prog Call Res ε) where
  pure := Prog.pure
  bind := Prog.bind

/-- Make one call and return its answer. -/
def perform (c : Call) : Prog Call Res ε (Res c) := .call c .pure

/-- Run a program; an exception ends it. -/
def exec (handle : σ → (c : Call) → σ × Except ε (Res c)) (s : σ) :
    Prog Call Res ε α → σ × Except ε α
  | .pure a => (s, .ok a)
  | .raise err => (s, .error err)
  | .call c next =>
    match handle s c with
    | (s, .ok r) => exec handle s (next r)
    | (s, .error err) => (s, .error err)

/-- Replace every call by a program over another service. -/
def translate {Call' : Type} {Res' : Call' → Type}
    (f : (c : Call) → Prog Call' Res' ε (Res c)) :
    Prog Call Res ε α → Prog Call' Res' ε α
  | .pure a => .pure a
  | .raise err => .raise err
  | .call c next => (f c).bind fun r => (next r).translate f

variable (handle : σ → (c : Call) → σ × Except ε (Res c))

@[simp]
theorem exec_pure (s : σ) (a : α) :
    exec handle s (Pure.pure a : Prog Call Res ε α) = (s, .ok a) := rfl

theorem exec_bind (s : σ) (p : Prog Call Res ε α) (f : α → Prog Call Res ε β) :
    exec handle s (p >>= f) =
      match exec handle s p with
      | (s', .ok a) => exec handle s' (f a)
      | (s', .error err) => (s', .error err) := by
  change exec handle s (p.bind f) = _
  induction p generalizing s with
  | pure a => rfl
  | raise err => rfl
  | call c next ih =>
      simp only [Prog.bind, exec]
      split
      · next s' r hcall => exact ih r s'
      · rfl

variable {handle}

theorem exec_bind_ok {s s' : σ} {p : Prog Call Res ε α} {a : α}
    (h : exec handle s p = (s', .ok a)) (f : α → Prog Call Res ε β) :
    exec handle s (p >>= f) = exec handle s' (f a) := by
  rw [exec_bind, h]

/-- A sequence that returns: both parts return. -/
theorem exec_bind_returns {s s' : σ} {p : Prog Call Res ε α} {f : α → Prog Call Res ε β} {b : β}
    (h : exec handle s (p >>= f) = (s', .ok b)) :
    ∃ s₁ a, exec handle s p = (s₁, .ok a) ∧ exec handle s₁ (f a) = (s', .ok b) := by
  rw [exec_bind] at h
  split at h
  · next s₁ a hp => exact ⟨s₁, a, hp, h⟩
  · cases h

/-- What a sequence leaves, whether or not one of its parts raises. -/
theorem exec_bind_state {s : σ} {p : Prog Call Res ε α} {f : α → Prog Call Res ε β} (P : σ → Prop)
    (first : P (exec handle s p).1)
    (next : ∀ s' a, exec handle s p = (s', .ok a) → P (exec handle s' (f a)).1) :
    P (exec handle s (p >>= f)).1 := by
  rw [exec_bind]
  cases h : exec handle s p with
  | mk s' result =>
      cases result with
      | ok a => exact next s' a h
      | error err =>
          rw [h] at first
          exact first

/-- What is computed from an answer at the end leaves the state. -/
theorem exec_map_state (s : σ) (p : Prog Call Res ε α) (f : α → β) :
    (exec handle s (p >>= fun a => Pure.pure (f a))).1 = (exec handle s p).1 := by
  rw [exec_bind]
  cases exec handle s p with
  | mk s' result => cases result <;> rfl

theorem exec_perform_state (s : σ) (c : Call) :
    (exec handle s (perform c)).1 = (handle s c).1 := by
  simp only [perform, exec]
  split
  · next s' r h => rw [h]
  · next s' err h => rw [h]

end Prog
end Lib
