import PyLogStream.Lib.Footprint

/-!
A program may be stopped between two of its calls, as when its process dies. What it has
done by then is what its first calls have done. A program that makes a single change is
stopped before it or after it; what holds before and after each part of a sequence holds
wherever the sequence is stopped.
-/

namespace Lib
namespace Prog
variable {Call : Type} {Res : Call → Type} {ε α β σ τ : Type}

/-- The state that a program leaves when it is stopped after so many calls. -/
def stopped (handle : σ → (c : Call) → σ × Except ε (Res c)) : Nat → σ → Prog Call Res ε α → σ
  | n + 1, s, .call c next =>
    match handle s c with
    | (s, .ok r) => stopped handle n s (next r)
    | (s, .error _) => s
  | _, s, _ => s

section
variable {handle : σ → (c : Call) → σ × Except ε (Res c)}

@[simp]
theorem stopped_zero (s : σ) (p : Prog Call Res ε α) : stopped handle 0 s p = s := by
  cases p <;> rfl

@[simp]
theorem stopped_pure (n : Nat) (s : σ) (a : α) :
    stopped handle n s (Pure.pure a : Prog Call Res ε α) = s := by
  cases n <;> rfl

@[simp]
theorem stopped_raise (n : Nat) (s : σ) (err : ε) :
    stopped handle n s (Prog.raise err : Prog Call Res ε α) = s := by
  cases n <;> rfl

/-- A sequence is stopped in its first part, or behind it in the second. -/
theorem stopped_bind {P : σ → Prop} {s : σ} {p : Prog Call Res ε α} {f : α → Prog Call Res ε β}
    (first : ∀ n, P (stopped handle n s p))
    (next : ∀ s' a, p.exec handle s = (s', .ok a) → ∀ n, P (stopped handle n s' (f a))) (n : Nat) :
    P (stopped handle n s (p >>= f)) := by
  change P (stopped handle n s (p.bind f))
  induction p generalizing s n with
  | pure a => exact next s a rfl n
  | raise err => cases n <;> exact first 0
  | call c cont ih =>
      cases n with
      | zero =>
          have hstart := first 0
          rw [stopped_zero] at hstart ⊢
          exact hstart
      | succ n =>
          have hfirst := fun n => first (n + 1)
          simp only [stopped, Prog.bind] at hfirst ⊢
          simp only [exec] at next
          cases hcall : handle s c with
          | mk s' answer =>
              simp only [hcall] at hfirst next ⊢
              cases answer with
              | ok r => exact ih r hfirst next n
              | error err => exact hfirst n

/-- What is computed from an answer at the end makes no difference. -/
theorem stopped_map (n : Nat) (s : σ) (p : Prog Call Res ε α) (g : α → β) :
    stopped handle n s (p >>= fun a => Pure.pure (g a)) = stopped handle n s p := by
  change stopped handle n s (p.bind fun a => Prog.pure (g a)) = _
  induction p generalizing n s with
  | pure a => cases n <;> rfl
  | raise err => cases n <;> rfl
  | call c next ih =>
      cases n with
      | zero => rfl
      | succ n =>
          simp only [Prog.bind, stopped]
          split
          · next s' r h => exact ih r n s'
          · rfl

/-- What every call keeps holds wherever the program is stopped. -/
theorem Within.stopped_keeps {P : Call → Prop} {Q : α → Prop} {K : σ → Prop}
    (keep : ∀ s c, P c → K s → K (handle s c).1) {p : Prog Call Res ε α} (hp : p.Within P Q)
    {s : σ} (h : K s) (n : Nat) : K (stopped handle n s p) := by
  induction p generalizing s n with
  | pure a => cases n <;> exact h
  | raise err => cases n <;> exact h
  | call c next ih =>
      cases n with
      | zero => exact h
      | succ n =>
          have hstep := keep s c hp.1 h
          simp only [stopped]
          cases hcall : handle s c with
          | mk s' answer =>
              rw [hcall] at hstep
              cases answer with
              | ok r => exact ih r (hp.2 r) hstep n
              | error err => exact hstep

/-- Wherever the program is stopped, what is seen of the state is as it was before, or as
the whole program leaves it. -/
def AllOrNothing (handle : σ → (c : Call) → σ × Except ε (Res c)) (view : σ → τ) (s : σ)
    (p : Prog Call Res ε α) : Prop :=
  ∀ n, view (stopped handle n s p) = view s ∨
    view (stopped handle n s p) = view (p.exec handle s).1

section
variable {view : σ → τ} {P : Call → Prop} {Q : α → Prop}

theorem allOrNothing_perform (s : σ) (c : Call) :
    AllOrNothing handle view s (perform c : Prog Call Res ε (Res c)) := by
  intro n
  cases n with
  | zero => exact Or.inl rfl
  | succ n =>
      right
      rw [exec_perform_state]
      simp only [perform, stopped]
      cases handle s c with
      | mk s' answer =>
          cases answer <;> rfl

theorem Within.allOrNothing (quiet : ∀ s c, P c → view (handle s c).1 = view s)
    {p : Prog Call Res ε α} (hp : p.Within P Q) (s : σ) : AllOrNothing handle view s p := fun n =>
  Or.inl (hp.stopped_keeps
    (fun s' c hc (h : view s' = view s) => (quiet s' c hc).trans h) rfl n)

/-- A program may ask for something before its change. -/
theorem AllOrNothing.after (quiet : ∀ s c, P c → view (handle s c).1 = view s)
    {p : Prog Call Res ε α} (hp : p.Within P Q) {s : σ} {f : α → Prog Call Res ε β}
    (hf : ∀ s' a, Q a → p.exec handle s = (s', .ok a) → AllOrNothing handle view s' (f a)) :
    AllOrNothing handle view s (p >>= f) := by
  have keep : ∀ s' c, P c → view s' = view s → view (handle s' c).1 = view s :=
    fun s' c hc h => (quiet s' c hc).trans h
  intro n
  refine stopped_bind (P := fun s' => view s' = view s ∨
    view s' = view ((p >>= f).exec handle s).1)
    (fun m => Or.inl (hp.stopped_keeps keep rfl m)) (fun s' a hexec m => ?_) n
  have hview : view s' = view s := by
    have h := hp.exec_keeps (s := s) keep rfl
    rwa [hexec] at h
  rw [exec_bind_ok hexec, ← hview]
  exact hf s' a (hp.result hexec) hexec m

/-- And after it. -/
theorem AllOrNothing.before (quiet : ∀ s c, P c → view (handle s c).1 = view s)
    {p : Prog Call Res ε α} {s : σ} (hp : AllOrNothing handle view s p) {f : α → Prog Call Res ε β}
    (hf : ∀ a, (f a).Within P fun _ => True) : AllOrNothing handle view s (p >>= f) := by
  have keep : ∀ s₁ s' c, P c → view s' = view s₁ → view (handle s' c).1 = view s₁ :=
    fun s₁ s' c hc h => (quiet s' c hc).trans h
  have hend : view ((p >>= f).exec handle s).1 = view (p.exec handle s).1 := by
    rw [exec_bind]
    cases p.exec handle s with
    | mk s₁ result =>
        cases result with
        | ok a => exact (hf a).exec_keeps (keep s₁) rfl
        | error err => rfl
  intro n
  rw [hend]
  refine stopped_bind (P := fun s' => view s' = view s ∨ view s' = view (p.exec handle s).1) hp
    (fun s₁ a hexec m => Or.inr ?_) n
  rw [hexec]
  exact (hf a).stopped_keeps (keep s₁) rfl m

end
end
end Prog
end Lib
