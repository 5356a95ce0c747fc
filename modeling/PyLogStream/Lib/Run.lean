import Mathlib.Data.List.Basic
import Mathlib.Logic.Function.Iterate
import Mathlib.Tactic.Common

/-!
Runs of a deterministic step function. Whatever is not determined by the state
(a scheduler's choice, a clock reading, a message) is part of the event. A run
may be required to meet a condition at each step, in the state before the step.
-/

namespace Lib

section
variable {σ ε ρ : Type} (step : σ → ε → σ × ρ)

def run (s : σ) : List ε → σ
  | [] => s
  | e :: es => run (step s e).1 es

/-- The events of a run with their results. -/
def trace (s : σ) : List ε → List (ε × ρ)
  | [] => []
  | e :: es => (e, (step s e).2) :: trace (step s e).1 es

def MeetsAll (cond : σ → ε → Prop) (s : σ) : List ε → Prop
  | [] => True
  | e :: es => cond s e ∧ MeetsAll cond (step s e).1 es

end

section
variable {σ ε ρ : Type} {step : σ → ε → σ × ρ} {cond : σ → ε → Prop}

instance [h : ∀ s e, Decidable (cond s e)] (s : σ) (es : List ε) :
    Decidable (MeetsAll step cond s es) :=
  match es with
  | [] => isTrue trivial
  | e :: es =>
    have := instDecidableMeetsAll (step s e).1 es
    inferInstanceAs (Decidable (cond s e ∧ MeetsAll step cond (step s e).1 es))

theorem run_append (s : σ) (es fs : List ε) :
    run step s (es ++ fs) = run step (run step s es) fs := by
  induction es generalizing s with
  | nil => rfl
  | cons e es ih => exact ih (step s e).1

theorem run_map {ε' : Type} (f : ε' → ε) (s : σ) (es : List ε') :
    run step s (es.map f) = run (fun s e => step s (f e)) s es := by
  induction es generalizing s with
  | nil => rfl
  | cons e es ih => exact ih (step s (f e)).1

/-- What every step raises by one level the run raises by its length. -/
theorem run_counts (Inv : Nat → σ → Prop) {es : List ε}
    (raises : ∀ n s e, Inv n s → Inv (n + 1) (step s e).1) {n : Nat} {s : σ} (init : Inv n s) :
    Inv (n + es.length) (run step s es) := by
  induction es generalizing n s with
  | nil => exact init
  | cons e es ih =>
      rw [List.length_cons, Nat.add_comm es.length, ← Nat.add_assoc]
      exact ih (raises n s e init)

/-- What every step of the run keeps holds at its end. -/
theorem run_keeps (Inv : σ → Prop) {es : List ε} (keep : ∀ s, ∀ e ∈ es, Inv s → Inv (step s e).1)
    {s : σ} (init : Inv s) : Inv (run step s es) := by
  induction es generalizing s with
  | nil => exact init
  | cons e es ih =>
      exact ih (fun s e' he' => keep s e' (List.mem_cons_of_mem e he'))
        (keep s e List.mem_cons_self init)

theorem MeetsAll.of_append {s : σ} {es fs : List ε} (h : MeetsAll step cond s (es ++ fs)) :
    MeetsAll step cond s es ∧ MeetsAll step cond (run step s es) fs := by
  induction es generalizing s with
  | nil => exact ⟨trivial, h⟩
  | cons e es ih =>
      obtain ⟨hes, hfs⟩ := ih h.2
      exact ⟨⟨h.1, hes⟩, hfs⟩

theorem MeetsAll.with_mem {s : σ} {es all : List ε} (h : MeetsAll step cond s es)
    (hsub : ∀ e ∈ es, e ∈ all) : MeetsAll step (fun s e => e ∈ all ∧ cond s e) s es := by
  induction es generalizing s with
  | nil => trivial
  | cons e es ih =>
      exact ⟨⟨hsub e List.mem_cons_self, h.1⟩, ih h.2 fun e' h' => hsub e' (List.mem_cons_of_mem _ h')⟩

/-- What every step that meets the condition keeps holds at the end of the run. -/
theorem MeetsAll.invariant (Inv : σ → Prop)
    (keep : ∀ s e, Inv s → cond s e → Inv (step s e).1) {s : σ} (init : Inv s) {es : List ε}
    (h : MeetsAll step cond s es) : Inv (run step s es) := by
  induction es generalizing s with
  | nil => exact init
  | cons e es ih => exact ih (keep s e init h.1) h.2

/-- A relation that the steps keep which meet the condition holds between the ends of two
runs of the same events. -/
theorem MeetsAll.related {σ' ρ' : Type} (step' : σ' → ε → σ' × ρ') (R : σ → σ' → Prop)
    (keep : ∀ s s' e, R s s' → cond s e → R (step s e).1 (step' s' e).1) {s : σ} {s' : σ'}
    (init : R s s') {es : List ε} (h : MeetsAll step cond s es) :
    R (run step s es) (run step' s' es) := by
  induction es generalizing s s' with
  | nil => exact init
  | cons e es ih => exact ih (keep s s' e init h.1) h.2

theorem meetsAll_iff_forall_early {s : σ} {es : List ε} :
    MeetsAll step cond s es ↔
      ∀ early e late, es = early ++ e :: late → cond (run step s early) e := by
  induction es generalizing s with
  | nil =>
      refine iff_of_true trivial fun early e late h => ?_
      simp at h
  | cons e es ih =>
      constructor
      · rintro ⟨hcond, hrest⟩ early e' late heq
        cases early with
        | nil =>
            obtain ⟨rfl, -⟩ := List.cons.inj heq
            exact hcond
        | cons f early =>
            obtain ⟨rfl, hes⟩ := List.cons.inj heq
            exact ih.mp hrest early e' late hes
      · intro h
        exact ⟨h [] e es rfl, ih.mpr fun early e' late heq =>
          h (e :: early) e' late (congrArg (e :: ·) heq)⟩

/-- Conditions that agree wherever an invariant holds are met by the same runs. -/
theorem meetsAll_congr (Inv : σ → Prop) {cond' : σ → ε → Prop}
    (keep : ∀ s e, Inv s → Inv (step s e).1) (h : ∀ s e, Inv s → (cond s e ↔ cond' s e)) {s : σ}
    (init : Inv s) {es : List ε} : MeetsAll step cond s es ↔ MeetsAll step cond' s es := by
  induction es generalizing s with
  | nil => exact Iff.rfl
  | cons e es ih => exact and_congr (h s e init) (ih (keep s e init))

/-- If a condition says exactly which steps keep a property, the property holds in every
state reached exactly in the runs whose steps all meet it. -/
theorem forall_early_iff_meetsAll (Inv good : σ → Prop)
    (keep : ∀ s e, Inv s → Inv (step s e).1)
    (exact_step : ∀ s e, Inv s → good s → (good (step s e).1 ↔ cond s e)) {s : σ} (init : Inv s)
    (hgood : good s) {es : List ε} :
    (∀ early late, es = early ++ late → good (run step s early)) ↔ MeetsAll step cond s es := by
  induction es generalizing s with
  | nil =>
      refine iff_of_true (fun early late h => ?_) trivial
      rw [List.nil_eq, List.append_eq_nil_iff] at h
      rw [h.1]
      exact hgood
  | cons e es ih =>
      have hfirst := exact_step s e init hgood
      constructor
      · intro h
        have hnext : good (step s e).1 := h [e] es rfl
        exact ⟨hfirst.mp hnext, (ih (keep s e init) hnext).mp fun early late heq =>
          h (e :: early) late (congrArg (e :: ·) heq)⟩
      · rintro ⟨hcond, hrest⟩ early late heq
        cases early with
        | nil => exact hgood
        | cons e' early =>
            rw [List.cons_append, List.cons.injEq] at heq
            obtain ⟨rfl, hes⟩ := heq
            exact (ih (keep s e init) (hfirst.mpr hcond)).mpr hrest early late hes

/-- Noninterference by unwinding: if the hidden events do not change what a state
means to the observer, and related states treat the kept events alike, then the
observer's part of a run is that of the run without the hidden events. -/
theorem MeetsAll.trace_filter {R : σ → σ → Prop} {own kept : ε → Bool}
    (kept_of_own : ∀ e, own e = true → kept e = true)
    (visible : ∀ s s' e, R s s' → cond s e → kept e = true →
      R (step s e).1 (step s' e).1 ∧ (own e = true → (step s e).2 = (step s' e).2))
    (hidden : ∀ s s' e, R s s' → cond s e → kept e = false → R (step s e).1 s')
    {s s' : σ} (rel : R s s') {es : List ε} (h : MeetsAll step cond s es) :
    (trace step s es).filter (fun entry => own entry.1) =
      (trace step s' (es.filter kept)).filter (fun entry => own entry.1) := by
  induction es generalizing s s' with
  | nil => rfl
  | cons e es ih =>
      cases hkept : kept e with
      | true =>
          obtain ⟨rel', hresult⟩ := visible s s' e rel h.1 hkept
          have htail := ih rel' h.2
          rw [List.filter_cons_of_pos hkept]
          simp only [trace, List.filter_cons]
          split
          · next hown => rw [htail, hresult hown]
          · exact htail
      | false =>
          have hown : ¬ own e = true := fun hown => by simp [kept_of_own e hown] at hkept
          rw [List.filter_cons_of_neg (by simp [hkept])]
          simp only [trace, List.filter_cons, if_neg hown]
          exact ih (hidden s s' e rel h.1 hkept) h.2

end

/-- Some number of steps on, the property holds. -/
def Leads {σ : Type} (next : σ → σ) (Q : σ → Prop) (s : σ) : Prop := ∃ n, Q (next^[n] s)

namespace Leads
variable {σ : Type} {next : σ → σ} {P Q : σ → Prop} {s : σ}

theorem now (h : Q s) : Leads next Q s := ⟨0, h⟩

theorem step (h : Leads next Q (next s)) : Leads next Q s := by
  obtain ⟨n, hn⟩ := h
  exact ⟨n + 1, hn⟩

theorem bind (h : Leads next P s) (h' : ∀ s', P s' → Leads next Q s') : Leads next Q s := by
  obtain ⟨n, hn⟩ := h
  obtain ⟨m, hm⟩ := h' _ hn
  exact ⟨m + n, (Function.iterate_add_apply next m n s).symm ▸ hm⟩

end Leads
end Lib
