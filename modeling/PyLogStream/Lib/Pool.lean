import PyLogStream.Lib.Footprint
import Mathlib.Logic.Function.Basic

/-!
Any number of programs that run concurrently against one service, each call atomic. A
schedule says whose call comes next; a program that has ended lets its turn pass.
-/

namespace Lib

structure Pool (σ Call : Type) (Res : Call → Type) (ε α ι : Type) where
  state : σ
  progs : ι → Prog Call Res ε α

section
variable {Call : Type} {Res : Call → Type} {ε α σ ι : Type} [DecidableEq ι]
variable (handle : σ → (c : Call) → σ × Except ε (Res c))

/-- One program makes its next call. -/
def Pool.step (pool : Pool σ Call Res ε α ι) (i : ι) : Pool σ Call Res ε α ι × Option Call :=
  let (state, prog) := (pool.progs i).advance handle pool.state
  (⟨state, Function.update pool.progs i prog⟩, (pool.progs i).nextCall)

variable {handle} {P : Call → Prop} {A : (c : Call) → Res c → Prop} {Q : α → Prop}
variable {Inv : σ → Prop}

theorem Prog.Guarded.advance
    (keep : ∀ s c, P c → Inv s → Inv (handle s c).1 ∧ ∀ r, (handle s c).2 = .ok r → A c r)
    {p : Prog Call Res ε α} (hp : p.Guarded P A Q) {s : σ} (h : Inv s) :
    Inv (p.advance handle s).1 ∧ (p.advance handle s).2.Guarded P A Q := by
  cases p with
  | pure a => exact ⟨h, hp⟩
  | raise err => exact ⟨h, trivial⟩
  | call c next =>
      obtain ⟨hstate, hanswer⟩ := keep s c hp.1 h
      rw [Prog.advance_call]
      refine ⟨hstate, ?_⟩
      cases hresult : (handle s c).2 with
      | ok r => exact hp.2 r (hanswer r hresult)
      | error err => trivial

/-- A state that every call in the set keeps, and that answers as it should, is kept by
the programs together. -/
theorem Pool.guarded_run
    (keep : ∀ s c, P c → Inv s → Inv (handle s c).1 ∧ ∀ r, (handle s c).2 = .ok r → A c r)
    {pool : Pool σ Call Res ε α ι} (hprogs : ∀ i, (pool.progs i).Guarded P A Q)
    (h : Inv pool.state) (schedule : List ι) :
    Inv (run (Pool.step handle) pool schedule).state := by
  induction schedule generalizing pool with
  | nil => exact h
  | cons i schedule ih =>
      obtain ⟨hstate, hprog⟩ := (hprogs i).advance keep h
      refine ih (fun j => ?_) hstate
      simp only [Pool.step, Function.update_apply]
      split
      · exact hprog
      · exact hprogs j

end
end Lib
