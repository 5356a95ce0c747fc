import PyLogStream.Lib.Interleave

/-!
Rules for the calls of a program. `Within` bounds the calls and the results of every
branch of a program, whatever the answers are: what such calls keep, the program
keeps. `Guarded` takes the answers into account as well. The calls a program makes from a
given state follow its structure.
-/

namespace Lib
namespace Prog
section
variable {Call : Type} {Res : Call → Type} {ε α β : Type}

theorem bind_pure (p : Prog Call Res ε α) : p.bind Prog.pure = p := by
  induction p with
  | pure a => rfl
  | raise err => rfl
  | call c next ih => exact congrArg (Prog.call c) (funext ih)

theorem bind_assoc {γ : Type} (p : Prog Call Res ε α) (f : α → Prog Call Res ε β)
    (g : β → Prog Call Res ε γ) : (p.bind f).bind g = p.bind fun a => (f a).bind g := by
  induction p with
  | pure a => rfl
  | raise err => rfl
  | call c next ih => exact congrArg (Prog.call c) (funext ih)

section
variable {Call' : Type} {Res' : Call' → Type} (f : (c : Call) → Prog Call' Res' ε (Res c))

theorem translate_bind (p : Prog Call Res ε α) (g : α → Prog Call Res ε β) :
    (p >>= g).translate f = p.translate f >>= fun a => (g a).translate f := by
  change (p.bind g).translate f = (p.translate f).bind fun a => (g a).translate f
  induction p with
  | pure a => rfl
  | raise err => rfl
  | call c next ih =>
      simp only [Prog.bind, translate, bind_assoc]
      exact congrArg (Prog.bind (f c)) (funext ih)

theorem translate_perform (c : Call) : (perform c : Prog Call Res ε (Res c)).translate f = f c :=
  bind_pure (f c)

end

/-- Every call that the program can make is in the one set, every result in the other. -/
def Within (P : Call → Prop) (Q : α → Prop) : Prog Call Res ε α → Prop
  | .pure a => Q a
  | .raise _ => True
  | .call c next => P c ∧ ∀ r, (next r).Within P Q

variable {P : Call → Prop} {Q : α → Prop}

theorem Within.bind {R : β → Prop} {p : Prog Call Res ε α} {f : α → Prog Call Res ε β}
    (hp : p.Within P Q) (hf : ∀ a, Q a → (f a).Within P R) : (p >>= f).Within P R := by
  change (p.bind f).Within P R
  induction p with
  | pure a => exact hf a hp
  | raise err => trivial
  | call c next ih => exact ⟨hp.1, fun r => ih r (hp.2 r)⟩

theorem within_perform {c : Call} (h : P c) :
    (perform c : Prog Call Res ε (Res c)).Within P fun _ => True :=
  ⟨h, fun _ => trivial⟩

theorem Within.mono {P' : Call → Prop} {p : Prog Call Res ε α} (hp : p.Within P Q)
    (h : ∀ c, P c → P' c) : p.Within P' Q := by
  induction p with
  | pure a => exact hp
  | raise err => trivial
  | call c next ih => exact ⟨h c hp.1, fun r => ih r (hp.2 r)⟩

theorem within_pure {a : α} (h : Q a) : (Prog.pure a : Prog Call Res ε α).Within P Q := h

theorem within_any (p : Prog Call Res ε α) : p.Within (fun _ => True) fun _ => True := by
  induction p with
  | pure a => trivial
  | raise err => trivial
  | call c next ih => exact ⟨trivial, ih⟩

theorem Within.translate {Call' : Type} {Res' : Call' → Type} {P' : Call' → Prop}
    {f : (c : Call) → Prog Call' Res' ε (Res c)} {p : Prog Call Res ε α} (hp : p.Within P Q)
    (hf : ∀ c, P c → (f c).Within P' fun _ => True) : (p.translate f).Within P' Q := by
  induction p with
  | pure a => exact hp
  | raise err => trivial
  | call c next ih => exact Within.bind (hf c hp.1) fun r _ => ih r (hp.2 r)

section
variable {σ : Type} {handle : σ → (c : Call) → σ × Except ε (Res c)}

/-- What every call in the set keeps, the program keeps. -/
theorem Within.exec_keeps {Inv : σ → Prop} (keep : ∀ s c, P c → Inv s → Inv (handle s c).1)
    {p : Prog Call Res ε α} (hp : p.Within P Q) {s : σ} (h : Inv s) : Inv (p.exec handle s).1 := by
  induction p generalizing s with
  | pure a => exact h
  | raise err => exact h
  | call c next ih =>
      have hstep := keep s c hp.1 h
      cases hcall : handle s c with
      | mk s' answer =>
          rw [hcall] at hstep
          cases answer with
          | ok r =>
              simp only [exec, hcall]
              exact ih r (hp.2 r) hstep
          | error err =>
              simp only [exec, hcall]
              exact hstep

theorem Within.result {p : Prog Call Res ε α} (hp : p.Within P Q) {s s' : σ} {a : α}
    (h : p.exec handle s = (s', .ok a)) : Q a := by
  induction p generalizing s with
  | pure b => cases h; exact hp
  | raise err => cases h
  | call c next ih =>
      cases hcall : handle s c with
      | mk s₁ answer =>
          cases answer with
          | ok r =>
              simp only [exec, hcall] at h
              exact ih r (hp.2 r) h
          | error err =>
              simp only [exec, hcall] at h
              cases h

theorem Within.calls {p : Prog Call Res ε α} (hp : p.Within P Q) (s : σ) :
    ∀ c ∈ p.calls handle s, P c := by
  induction p generalizing s with
  | pure a => exact fun c h => absurd h List.not_mem_nil
  | raise err => exact fun c h => absurd h List.not_mem_nil
  | call d next ih =>
      intro c hc
      cases hcall : handle s d with
      | mk s' answer =>
          cases answer with
          | ok r =>
              simp only [Prog.calls, hcall, List.mem_cons] at hc
              exact hc.elim (fun heq => heq ▸ hp.1) (ih r (hp.2 r) s' c)
          | error err =>
              simp only [Prog.calls, hcall, List.mem_singleton] at hc
              exact hc ▸ hp.1

theorem calls_bind (s : σ) (p : Prog Call Res ε α) (f : α → Prog Call Res ε β) :
    (p >>= f).calls handle s = p.calls handle s ++
      match p.exec handle s with
      | (s', .ok a) => (f a).calls handle s'
      | (_, .error _) => [] := by
  change (p.bind f).calls handle s = _
  induction p generalizing s with
  | pure a => rfl
  | raise err => rfl
  | call c next ih =>
      cases hcall : handle s c with
      | mk s' answer =>
          cases answer with
          | ok r =>
              simp only [Prog.bind, Prog.calls, exec, hcall, List.cons_append]
              exact congrArg (List.cons c) (ih r s')
          | error err => simp only [Prog.bind, Prog.calls, exec, hcall, List.append_nil]

end

/-- Every call that the program can make is in the one set and every result in the other,
as long as the answers are as they should be. -/
def Guarded (P : Call → Prop) (A : (c : Call) → Res c → Prop) (Q : α → Prop) :
    Prog Call Res ε α → Prop
  | .pure a => Q a
  | .raise _ => True
  | .call c next => P c ∧ ∀ r, A c r → (next r).Guarded P A Q

variable {A : (c : Call) → Res c → Prop}

theorem Guarded.bind {R : β → Prop} {p : Prog Call Res ε α} {f : α → Prog Call Res ε β}
    (hp : p.Guarded P A Q) (hf : ∀ a, Q a → (f a).Guarded P A R) : (p >>= f).Guarded P A R := by
  change (p.bind f).Guarded P A R
  induction p with
  | pure a => exact hf a hp
  | raise err => trivial
  | call c next ih => exact ⟨hp.1, fun r hr => ih r (hp.2 r hr)⟩

theorem guarded_pure {a : α} (h : Q a) : (Pure.pure a : Prog Call Res ε α).Guarded P A Q := h

theorem guarded_perform {c : Call} (h : P c) :
    (perform c : Prog Call Res ε (Res c)).Guarded P A (A c) := ⟨h, fun _ hr => hr⟩

/-- A state that every call in the set keeps, and that answers as it should, is kept by
the program. -/
theorem Guarded.exec_keeps {σ : Type} {handle : σ → (c : Call) → σ × Except ε (Res c)}
    {Inv : σ → Prop}
    (keep : ∀ s c, P c → Inv s → Inv (handle s c).1 ∧ ∀ r, (handle s c).2 = .ok r → A c r)
    {p : Prog Call Res ε α} (hp : p.Guarded P A Q) {s : σ} (h : Inv s) :
    Inv (p.exec handle s).1 := by
  induction p generalizing s with
  | pure a => exact h
  | raise err => exact h
  | call c next ih =>
      obtain ⟨hstate, hanswer⟩ := keep s c hp.1 h
      cases hcall : handle s c with
      | mk s' answer =>
          rw [hcall] at hstate hanswer
          cases answer with
          | ok r =>
              simp only [exec, hcall]
              exact ih r (hp.2 r (hanswer r rfl)) hstate
          | error err =>
              simp only [exec, hcall]
              exact hstate

end
end Prog
end Lib
