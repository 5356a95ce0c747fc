import PyLogStream.Lib.Prog
import PyLogStream.Lib.Run

/-!
Two programs that run concurrently against one service, each call atomic. A schedule
says whose call comes next. If every call of the right program that is executed
before a call of the left one commutes with it, then the calls can be exchanged
until the left program runs first as a whole: the interleaving ends as the serial
execution does, and each program makes the same calls.
-/

namespace Lib

inductive Side where
  | left | right
  deriving DecidableEq, Repr

namespace Prog
section
variable {Call : Type} {Res : Call → Type} {ε α : Type}

def nextCall : Prog Call Res ε α → Option Call
  | .call c _ => some c
  | _ => none

/-- The outcome of a program that has ended. -/
def outcome : Prog Call Res ε α → Option (Except ε α)
  | .pure a => some (.ok a)
  | .raise err => some (.error err)
  | .call _ _ => none

variable {σ : Type} (handle : σ → (c : Call) → σ × Except ε (Res c))

/-- Execute one call; a program that has ended does nothing. -/
def advance (s : σ) : Prog Call Res ε α → σ × Prog Call Res ε α
  | .call c next =>
    match handle s c with
    | (s, .ok r) => (s, next r)
    | (s, .error err) => (s, .raise err)
  | p => (s, p)

/-- The calls a program makes when it runs alone. -/
def calls (s : σ) : Prog Call Res ε α → List Call
  | .pure _ => []
  | .raise _ => []
  | .call c next =>
    match handle s c with
    | (s, .ok r) => c :: calls s (next r)
    | (_, .error _) => [c]

end
end Prog

section
variable {Call : Type} {Res : Call → Type} {ε α β σ : Type}

structure Config (σ : Type) (Call : Type) (Res : Call → Type) (ε α β : Type) where
  state : σ
  left : Prog Call Res ε α
  right : Prog Call Res ε β

section
variable (handle : σ → (c : Call) → σ × Except ε (Res c))

/-- One side makes its next call. -/
def Config.step (cfg : Config σ Call Res ε α β) : Side → Config σ Call Res ε α β × Option Call
  | .left =>
    let (state, left) := cfg.left.advance handle cfg.state
    ({ cfg with state, left }, cfg.left.nextCall)
  | .right =>
    let (state, right) := cfg.right.advance handle cfg.state
    ({ cfg with state, right }, cfg.right.nextCall)

/-- Executed one after the other in either order, the calls give the same answers
and the same state. -/
def Commutes (c d : Call) : Prop :=
  ∀ s, (handle (handle s c).1 d).1 = (handle (handle s d).1 c).1 ∧
    (handle (handle s c).1 d).2 = (handle s d).2 ∧ (handle (handle s d).1 c).2 = (handle s c).2

end

/-- The calls of one side in a trace. -/
def callsOf (side : Side) (entries : List (Side × Option Call)) : List Call :=
  (entries.filter fun entry => decide (entry.1 = side)).filterMap Prod.snd

/-- No call of the other side precedes a dependent call of the first. -/
def OrderedBy (independent : Call → Call → Prop) (first : Side)
    (entries : List (Side × Option Call)) : Prop :=
  entries.Pairwise fun x y => x.1 ≠ first → y.1 = first →
    ∀ c ∈ x.2, ∀ d ∈ y.2, independent c d

instance (independent : Call → Call → Prop) [∀ c d, Decidable (independent c d)] (first : Side)
    (entries : List (Side × Option Call)) : Decidable (OrderedBy independent first entries) :=
  inferInstanceAs (Decidable (List.Pairwise _ entries))

variable (handle : σ → (c : Call) → σ × Except ε (Res c))

theorem Prog.advance_call (s : σ) (c : Call) (next : Res c → Prog Call Res ε α) :
    (Prog.call c next).advance handle s =
      ((handle s c).1, match (handle s c).2 with | .ok r => next r | .error err => .raise err) := by
  simp only [Prog.advance]
  split <;> next h => rw [h]

variable {handle}

theorem advance_swap {p : Prog Call Res ε α} {q : Prog Call Res ε β}
    (commute : ∀ c ∈ q.nextCall, ∀ d ∈ p.nextCall, Commutes handle c d) (s : σ) :
    (q.advance handle (p.advance handle s).1).1 = (p.advance handle (q.advance handle s).1).1 ∧
      (p.advance handle s).2 = (p.advance handle (q.advance handle s).1).2 ∧
      (q.advance handle (p.advance handle s).1).2 = (q.advance handle s).2 := by
  cases p with
  | pure a => exact ⟨rfl, rfl, rfl⟩
  | raise err => exact ⟨rfl, rfl, rfl⟩
  | call d nextLeft =>
      cases q with
      | pure a => exact ⟨rfl, rfl, rfl⟩
      | raise err => exact ⟨rfl, rfl, rfl⟩
      | call c nextRight =>
          obtain ⟨hstate, hd, hc⟩ := commute c rfl d rfl s
          simp only [Prog.advance_call]
          exact ⟨hstate.symm, by rw [hd], by rw [hc]⟩

/-- A call of the right side moves behind any number of calls of the left side. -/
theorem step_right_replicate (cfg : Config σ Call Res ε α β) (n : Nat)
    (commute : ∀ c ∈ cfg.right.nextCall,
      ∀ entry ∈ trace (Config.step handle) (cfg.step handle .right).1 (List.replicate n .left),
        ∀ d ∈ entry.2, Commutes handle c d) :
    trace (Config.step handle) cfg (List.replicate n .left) =
        trace (Config.step handle) (cfg.step handle .right).1 (List.replicate n .left) ∧
      (run (Config.step handle) cfg (List.replicate n .left)).step handle .right =
        (run (Config.step handle) (cfg.step handle .right).1 (List.replicate n .left),
          cfg.right.nextCall) := by
  induction n generalizing cfg with
  | zero => exact ⟨rfl, rfl⟩
  | succ n ih =>
      have hfirst : ∀ c ∈ cfg.right.nextCall, ∀ d ∈ cfg.left.nextCall, Commutes handle c d :=
        fun c hc d hd => commute c hc (.left, cfg.left.nextCall) List.mem_cons_self d hd
      obtain ⟨hstate, hleft, hright⟩ := advance_swap hfirst cfg.state
      have hswap : ((cfg.step handle .left).1.step handle .right).1 =
          ((cfg.step handle .right).1.step handle .left).1 := by
        simp only [Config.step, hstate, hleft, hright]
      have hrest := ih (cfg.step handle .left).1 (by
        rw [hswap]
        exact fun c hc entry hentry => commute c hc entry (List.mem_cons_of_mem _ hentry))
      rw [hswap] at hrest
      refine ⟨congrArg (List.cons _) hrest.1, hrest.2⟩

theorem trace_replicate {cfg : Config σ Call Res ε α β} {side : Side} {n : Nat}
    {entry : Side × Option Call}
    (h : entry ∈ trace (Config.step handle) cfg (List.replicate n side)) : entry.1 = side := by
  induction n generalizing cfg with
  | zero => simp [trace] at h
  | succ n ih =>
      rcases List.mem_cons.mp h with rfl | hrest
      · rfl
      · exact ih hrest

theorem mem_callsOf {side : Side} {entries : List (Side × Option Call)} {c : Call} :
    c ∈ callsOf side entries ↔ ∃ entry ∈ entries, entry.1 = side ∧ entry.2 = some c := by
  simp [callsOf, and_assoc]

theorem callsOf_cons_self (side : Side) (c : Option Call) (entries : List (Side × Option Call)) :
    callsOf side ((side, c) :: entries) = c.toList ++ callsOf side entries := by
  cases c <;> simp [callsOf]

theorem callsOf_cons_of_ne {side other : Side} (h : other ≠ side) (c : Option Call)
    (entries : List (Side × Option Call)) :
    callsOf side ((other, c) :: entries) = callsOf side entries := by
  simp [callsOf, h]

/-- Interleavings in which the left side comes first can be sorted. -/
theorem run_sorted {independent : Call → Call → Prop}
    (commutes : ∀ c d, independent c d → Commutes handle c d) (cfg : Config σ Call Res ε α β)
    (schedule : List Side)
    (ordered : OrderedBy independent .left (trace (Config.step handle) cfg schedule)) :
    let n := schedule.count .left
    let m := schedule.count .right
    let mid := run (Config.step handle) cfg (List.replicate n .left)
    run (Config.step handle) cfg schedule =
        run (Config.step handle) mid (List.replicate m .right) ∧
      callsOf .left (trace (Config.step handle) cfg schedule) =
        callsOf .left (trace (Config.step handle) cfg (List.replicate n .left)) ∧
      callsOf .right (trace (Config.step handle) cfg schedule) =
        callsOf .right (trace (Config.step handle) mid (List.replicate m .right)) := by
  induction schedule generalizing cfg with
  | nil => exact ⟨rfl, rfl, rfl⟩
  | cons side schedule ih =>
      obtain ⟨hhead, htail⟩ := List.pairwise_cons.mp ordered
      obtain ⟨hrun, hleft, hright⟩ := ih _ htail
      cases side with
      | left =>
          have hne : Side.left ≠ .right := by decide
          simp only [List.count_cons_self, List.count_cons_of_ne hne, List.replicate_succ, trace,
            run, callsOf_cons_self, callsOf_cons_of_ne hne] at hrun hleft hright ⊢
          exact ⟨hrun, by rw [hleft], hright⟩
      | right =>
          have hne : Side.right ≠ .left := by decide
          -- the call commutes with all later calls of the left side
          obtain ⟨htrace, hstep⟩ := step_right_replicate cfg (schedule.count .left)
            (fun c hc entry hentry d hd => by
              have hside : entry.1 = Side.left := trace_replicate hentry
              have hmem : d ∈ callsOf .left (trace (Config.step handle) (cfg.step handle .right).1
                  schedule) := by
                rw [hleft]
                exact mem_callsOf.mpr ⟨entry, hentry, hside, hd⟩
              obtain ⟨entry', hentry', hside', hd'⟩ := mem_callsOf.mp hmem
              exact commutes c d (hhead entry' hentry' hne hside' c hc d hd'))
          simp only [List.count_cons_self, List.count_cons_of_ne hne, List.replicate_succ, trace,
            run, callsOf_cons_self, callsOf_cons_of_ne hne] at hrun hleft hright ⊢
          rw [hstep, htrace]
          exact ⟨hrun, hleft, by rw [hright]; rfl⟩

section
variable (handle)

/-- A side that runs alone makes the calls of its program and ends as it does. -/
theorem run_left_alone (cfg : Config σ Call Res ε α β) (n : Nat) {result : Except ε α}
    (h : (run (Config.step handle) cfg (List.replicate n .left)).left.outcome = some result) :
    cfg.left.exec handle cfg.state =
        ((run (Config.step handle) cfg (List.replicate n .left)).state, result) ∧
      callsOf .left (trace (Config.step handle) cfg (List.replicate n .left)) =
        cfg.left.calls handle cfg.state ∧
      (run (Config.step handle) cfg (List.replicate n .left)).right = cfg.right := by
  induction n generalizing cfg with
  | zero =>
      obtain ⟨s, left, right⟩ := cfg
      cases left with
      | pure a => exact ⟨by rw [← Option.some.inj h]; rfl, rfl, rfl⟩
      | raise err => exact ⟨by rw [← Option.some.inj h]; rfl, rfl, rfl⟩
      | call c next => cases h
  | succ n ih =>
      obtain ⟨s, left, right⟩ := cfg
      obtain ⟨hexec, hcalls, hright⟩ := ih _ h
      simp only [List.replicate_succ, trace, run, callsOf_cons_self]
      cases left with
      | pure a => exact ⟨hexec, hcalls, hright⟩
      | raise err => exact ⟨hexec, hcalls, hright⟩
      | call c next =>
          simp only [Config.step, Prog.advance_call, Prog.nextCall, Option.toList_some,
            List.singleton_append] at hexec hcalls hright ⊢
          cases hcall : handle s c with
          | mk s' answer =>
              rw [hcall] at hexec hcalls hright
              cases answer with
              | ok r =>
                  simp only [Prog.exec, Prog.calls, hcall]
                  exact ⟨hexec, congrArg (List.cons c) hcalls, hright⟩
              | error err =>
                  simp only [Prog.exec, Prog.calls, hcall]
                  exact ⟨hexec, congrArg (List.cons c) hcalls, hright⟩

/-- The two sides exchanged. -/
def Side.swap : Side → Side
  | .left => .right
  | .right => .left

def Config.swap (cfg : Config σ Call Res ε α β) : Config σ Call Res ε β α :=
  ⟨cfg.state, cfg.right, cfg.left⟩

theorem run_swap (cfg : Config σ Call Res ε α β) (schedule : List Side) :
    run (Config.step handle) cfg.swap (schedule.map Side.swap) =
        (run (Config.step handle) cfg schedule).swap ∧
      trace (Config.step handle) cfg.swap (schedule.map Side.swap) =
        (trace (Config.step handle) cfg schedule).map fun entry => (entry.1.swap, entry.2) := by
  induction schedule generalizing cfg with
  | nil => exact ⟨rfl, rfl⟩
  | cons side schedule ih =>
      obtain ⟨hrun, htrace⟩ := ih (cfg.step handle side).1
      cases side with
      | left => exact ⟨hrun, congrArg (List.cons _) htrace⟩
      | right => exact ⟨hrun, congrArg (List.cons _) htrace⟩

theorem callsOf_swap (side : Side) (entries : List (Side × Option Call)) :
    callsOf side.swap (entries.map fun entry => (entry.1.swap, entry.2)) = callsOf side entries := by
  induction entries with
  | nil => rfl
  | cons entry entries ih =>
      obtain ⟨other, c⟩ := entry
      cases side <;> cases other <;>
        simp_all [callsOf, Side.swap, List.filterMap_cons]

theorem run_right_alone (cfg : Config σ Call Res ε α β) (n : Nat) {result : Except ε β}
    (h : (run (Config.step handle) cfg (List.replicate n .right)).right.outcome = some result) :
    cfg.right.exec handle cfg.state =
        ((run (Config.step handle) cfg (List.replicate n .right)).state, result) ∧
      callsOf .right (trace (Config.step handle) cfg (List.replicate n .right)) =
        cfg.right.calls handle cfg.state := by
  obtain ⟨hrun, htrace⟩ := run_swap handle cfg (List.replicate n .right)
  rw [List.map_replicate] at hrun htrace
  have hend : (run (Config.step handle) cfg.swap (List.replicate n .left)).left.outcome =
      some result := by
    rw [show Side.left = Side.swap .right from rfl, hrun]
    exact h
  obtain ⟨hexec, hcalls, -⟩ := run_left_alone handle cfg.swap n hend
  rw [show Side.left = Side.swap .right from rfl, hrun] at hexec
  rw [show Side.left = Side.swap .right from rfl, htrace, callsOf_swap] at hcalls
  exact ⟨hexec, hcalls⟩

theorem run_right_left (cfg : Config σ Call Res ε α β) (n : Nat) :
    (run (Config.step handle) cfg (List.replicate n .right)).left = cfg.left := by
  induction n generalizing cfg with
  | zero => rfl
  | succ n ih => exact ih (cfg.step handle .right).1

end

/-- A complete interleaving in which the left side comes first ends as the serial
execution, left program first, and both programs make the calls they make there. -/
theorem serial_of_left_first {independent : Call → Call → Prop}
    (commutes : ∀ c d, independent c d → Commutes handle c d) (cfg : Config σ Call Res ε α β)
    (schedule : List Side)
    (ordered : OrderedBy independent .left (trace (Config.step handle) cfg schedule))
    {ra : Except ε α} {rb : Except ε β}
    (hleft : (run (Config.step handle) cfg schedule).left.outcome = some ra)
    (hright : (run (Config.step handle) cfg schedule).right.outcome = some rb) :
    ∃ mid, cfg.left.exec handle cfg.state = (mid, ra) ∧
      cfg.right.exec handle mid = ((run (Config.step handle) cfg schedule).state, rb) ∧
      callsOf .left (trace (Config.step handle) cfg schedule) =
        cfg.left.calls handle cfg.state ∧
      callsOf .right (trace (Config.step handle) cfg schedule) = cfg.right.calls handle mid := by
  obtain ⟨hrun, hcallsLeft, hcallsRight⟩ := run_sorted commutes cfg schedule ordered
  rw [hrun] at hleft hright ⊢
  rw [run_right_left] at hleft
  obtain ⟨hexecLeft, hleftCalls, hkept⟩ := run_left_alone handle cfg _ hleft
  obtain ⟨hexecRight, hrightCalls⟩ := run_right_alone handle _ _ hright
  rw [hkept] at hexecRight hrightCalls
  exact ⟨_, hexecLeft, hexecRight, hcallsLeft.trans hleftCalls, hcallsRight.trans hrightCalls⟩

theorem OrderedBy.swap {independent : Call → Call → Prop} {entries : List (Side × Option Call)}
    (ordered : OrderedBy independent .right entries) :
    OrderedBy independent .left (entries.map fun entry => (entry.1.swap, entry.2)) := by
  refine List.pairwise_map.mpr (ordered.imp fun {x y} h hx hy => h ?_ ?_)
  · rintro heq
    exact hx (by rw [heq]; rfl)
  · cases hside : y.1 with
    | left =>
        rw [hside] at hy
        cases hy
    | right => rfl

/-- The same with the right side first. -/
theorem serial_of_right_first {independent : Call → Call → Prop}
    (commutes : ∀ c d, independent c d → Commutes handle c d) (cfg : Config σ Call Res ε α β)
    (schedule : List Side)
    (ordered : OrderedBy independent .right (trace (Config.step handle) cfg schedule))
    {ra : Except ε α} {rb : Except ε β}
    (hleft : (run (Config.step handle) cfg schedule).left.outcome = some ra)
    (hright : (run (Config.step handle) cfg schedule).right.outcome = some rb) :
    ∃ mid, cfg.right.exec handle cfg.state = (mid, rb) ∧
      cfg.left.exec handle mid = ((run (Config.step handle) cfg schedule).state, ra) ∧
      callsOf .right (trace (Config.step handle) cfg schedule) =
        cfg.right.calls handle cfg.state ∧
      callsOf .left (trace (Config.step handle) cfg schedule) = cfg.left.calls handle mid := by
  obtain ⟨hrun, htrace⟩ := run_swap handle cfg schedule
  have hleft' : (run (Config.step handle) cfg.swap (schedule.map Side.swap)).left.outcome =
      some rb := by
    rw [hrun]
    exact hright
  have hright' : (run (Config.step handle) cfg.swap (schedule.map Side.swap)).right.outcome =
      some ra := by
    rw [hrun]
    exact hleft
  have hserial := serial_of_left_first commutes cfg.swap (schedule.map Side.swap)
    (by rw [htrace]; exact ordered.swap) hleft' hright'
  rw [hrun, htrace] at hserial
  obtain ⟨mid, hfirst, hsecond, hcalls, hcalls'⟩ := hserial
  exact ⟨mid, hfirst, hsecond, (callsOf_swap .right _).symm.trans hcalls,
    (callsOf_swap .left _).symm.trans hcalls'⟩

/-- Calls of one kind, any two of which are dependent, appear in the order of the
sides: first all those of the first side, then all those of the other. -/
theorem OrderedBy.filter_calls {independent : Call → Call → Prop} {first : Side}
    {entries : List (Side × Option Call)} (ordered : OrderedBy independent first entries)
    (kind : Call → Bool) (dependent : ∀ c d, kind c = true → kind d = true → ¬ independent c d) :
    (entries.filterMap Prod.snd).filter kind =
      (callsOf first entries).filter kind ++ (callsOf first.swap entries).filter kind := by
  induction entries with
  | nil => rfl
  | cons entry entries ih =>
      obtain ⟨hhead, htail⟩ := List.pairwise_cons.mp ordered
      obtain ⟨side, call⟩ := entry
      have hrest := ih htail
      have hswap : first ≠ first.swap := by cases first <;> decide
      cases call with
      | none =>
          have hskip : ∀ other, callsOf other ((side, none) :: entries) = callsOf other entries :=
            fun other => by by_cases h : side = other <;> simp [callsOf, h]
          rw [hskip, hskip]
          exact hrest
      | some c =>
          have hcons : ((side, some c) :: entries).filterMap Prod.snd =
              c :: entries.filterMap Prod.snd := rfl
          rw [hcons]
          by_cases hside : side = first
          · subst hside
            rw [callsOf_cons_self, callsOf_cons_of_ne hswap]
            cases hkind : kind c <;> simp [hkind, hrest]
          · obtain rfl : side = first.swap := by cases side <;> cases first <;> simp_all [Side.swap]
            rw [callsOf_cons_self, callsOf_cons_of_ne hside]
            cases hkind : kind c with
            | false => simp [hkind, hrest]
            | true =>
                -- no later call of the first side is of this kind
                have hnone : (callsOf first entries).filter kind = [] := by
                  refine List.filter_eq_nil_iff.mpr fun d hd hkind' => ?_
                  obtain ⟨entry, hentry, hfirst, hcall⟩ := mem_callsOf.mp hd
                  exact dependent c d hkind hkind' (hhead entry hentry hside hfirst c rfl d hcall)
                rw [hnone] at hrest ⊢
                simp [hkind, hrest]

end
end Lib
