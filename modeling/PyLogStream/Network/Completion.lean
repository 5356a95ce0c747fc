import PyLogStream.Network.Lines

/-!
Whether the writer completes the callbacks it was given. A request waits in the
line of its topic, then its offset is on the way back to the event loop, then its
callback is done. `close` completes what is queued and waits for the workers; a
batch that a collector holds at that moment, and a batch whose append raises, have
nobody left to complete them.
-/

namespace PyLogStream
open Lib

namespace Futures

/-- Every callback of the requests completed with the exception of `close`. -/
def fail (f : Futures) (requests : List WriteRequest) : Futures :=
  { f with completed := f.completed ++ (requests.filter WriteRequest.callback).map fun req =>
      (req.number, .exception "Writer is closing") }

section
variable {f : Futures} {n m : Nat}

theorem complete_of_not_done (h : ¬ f.Done n) (outcome : Outcome) :
    f.complete n outcome = some { f with completed := f.completed ++ [(n, outcome)] } :=
  if_neg h

theorem done_cancel : (f.cancel n).Done m ↔ f.Done m ∨ m = n := by
  simp only [cancel]
  split
  · next h =>
      refine ⟨Or.inl, fun hor => hor.elim id ?_⟩
      rintro rfl
      exact h
  · simp only [Done, List.mem_append, List.mem_singleton]
    tauto

theorem cancelled_cancel (h : n ∈ f.cancelled) : n ∈ (f.cancel m).cancelled := by
  simp only [cancel]
  split
  · exact h
  · exact List.mem_append_left _ h

theorem cancel_completed (f : Futures) (n : Nat) : (f.cancel n).completed = f.completed := by
  simp only [cancel]
  split <;> rfl

theorem done_fail {requests : List WriteRequest} :
    (f.fail requests).Done n ↔
      f.Done n ∨ ∃ req ∈ requests, req.callback = true ∧ req.number = n := by
  simp only [Done, fail, List.map_append, List.mem_append, List.map_map, List.mem_map,
    List.mem_filter, Function.comp_apply]
  constructor
  · rintro (h | h | ⟨req, ⟨hreq, hcallback⟩, rfl⟩)
    · exact Or.inl (Or.inl h)
    · exact Or.inl (Or.inr h)
    · exact Or.inr ⟨req, hreq, hcallback, rfl⟩
  · rintro ((h | h) | ⟨req, hreq, hcallback, rfl⟩)
    · exact Or.inl h
    · exact Or.inr (Or.inl h)
    · exact Or.inr (Or.inr ⟨req, ⟨hreq, hcallback⟩, rfl⟩)

end
end Futures

namespace Writer

/-- The offsets on their way back to the event loop. -/
def owed (w : Writer) : List (WriteRequest × Int) :=
  (w.workers ++ w.workQueue).flatMap FlushJob.offsets ++ w.ready

/-- Somebody will still complete the callback of the request. -/
def Held (w : Writer) (req : WriteRequest) : Prop :=
  req ∈ w.line req.topic ∨ ∃ offset, (req, offset) ∈ w.owed

/-- An append raises only for a batch without live callbacks; when the writer is closed,
no collector holds a request with a live callback and no queued one has been cancelled. -/
def NothingLost (w : Writer) : WriterEvent → Prop
  | .write worker env => ∀ job ∈ w.workers[worker]?, ∀ req ∈ job.batch.head?,
      (w.log.append env job.topic req.data).2.isOk = false →
        ∀ r ∈ job.batch ++ job.offsets.map Prod.fst,
          r.callback = true → r.number ∈ w.futures.cancelled
  | .close =>
      (∀ collector ∈ w.topicTask.values, ∀ r ∈ collector.batch,
        r.callback = true → r.number ∈ w.futures.cancelled) ∧
      ∀ q ∈ w.topicQueue.values, ∀ r ∈ q, r.callback = true → r.number ∉ w.futures.cancelled
  | _ => True

instance (w : Writer) (e : WriterEvent) : Decidable (w.NothingLost e) :=
  match e with
  | .write worker env => inferInstanceAs (Decidable (∀ job ∈ w.workers[worker]?,
      ∀ req ∈ job.batch.head?, (w.log.append env job.topic req.data).2.isOk = false →
        ∀ r ∈ job.batch ++ job.offsets.map Prod.fst,
          r.callback = true → r.number ∈ w.futures.cancelled))
  | .close => inferInstanceAs (Decidable ((∀ collector ∈ w.topicTask.values,
      ∀ r ∈ collector.batch, r.callback = true → r.number ∈ w.futures.cancelled) ∧
      ∀ q ∈ w.topicQueue.values, ∀ r ∈ q, r.callback = true → r.number ∉ w.futures.cancelled))
  | .submit .. | .dequeue _ | .timeout _ | .start | .callSoon _ | .runReady | .cancel _
  | .shutdown | .other _ => isTrue trivial

/-- Where the callbacks are. The exception of `close` is the only one, and once `close`
has returned nothing is left before the event loop. -/
structure Accounted (w : Writer) : Prop where
  tidy : w.Tidy
  once : (w.futures.completed.map Prod.fst).Nodup
  results : ∀ n offset, (n, Outcome.result offset) ∈ w.futures.completed →
    ∃ req, req.number = n ∧ (req, offset) ∈ w.appended
  opened : w.phase = .running → ∀ c ∈ w.futures.completed, ∃ offset, c.2 = .result offset
  owed : ∀ p ∈ w.owed, p ∈ w.appended
  held : ∀ req ∈ w.submitted, req.callback = true → ¬ w.futures.Done req.number → w.Held req
  lawful : w.phase ≠ .raised
  drained : w.phase ≠ .running → ∀ t, queueOf w.topicQueue t = [] ∧
    ∀ req ∈ batchOf w.topicTask t, req.callback = true → req.number ∈ w.futures.cancelled
  idle : w.phase = .closed → w.workers = [] ∧ w.workQueue = []

section
variable {w w' : Writer}

theorem Change.appended_subset (change : Change w w') : ∀ p ∈ w.appended, p ∈ w'.appended := by
  intro p hp
  cases change with
  | submits req number submitted appended line => rwa [appended]
  | writes topic req offset submitted appended line =>
      rw [appended]
      exact List.mem_append_left _ hp
  | shrinks submitted appended line => rwa [appended]

theorem Change.submitted_cases (change : Change w w') {req : WriteRequest}
    (h : req ∈ w'.submitted) : req ∈ w.submitted ∨ req ∈ w'.line req.topic := by
  cases change with
  | submits new number submitted appended line =>
      rw [submitted] at h
      cases List.mem_append.mp h with
      | inl hold => exact Or.inl hold
      | inr hnew =>
          cases List.mem_singleton.mp hnew
          refine Or.inr ?_
          simp [line]
  | writes topic new offset submitted appended line => exact Or.inl (submitted ▸ h)
  | shrinks submitted appended line => exact Or.inl (submitted ▸ h)

/-- A step that completes and cancels nothing. -/
theorem Accounted.keeps (ok : w.Accounted) (change : Change w w')
    (hfutures : w'.futures = w.futures) (hphase : w'.phase = w.phase)
    (hopen : w.phase ≠ .running →
      w'.topicTask = w.topicTask ∧ w'.topicQueue = w.topicQueue)
    (hidle : w.phase = .closed → w.workers = [] ∧ w.workQueue = [] →
      w'.workers = [] ∧ w'.workQueue = [])
    (howed : ∀ p ∈ w'.owed, p ∈ w.owed ∨ p ∈ w'.appended)
    (hheld : ∀ req, req.callback = true → ¬ w.futures.Done req.number → w.Held req →
      w'.Held req) : w'.Accounted := by
  refine ⟨ok.tidy.change change, hfutures ▸ ok.once, ?_, ?_, ?_, ?_, hphase ▸ ok.lawful, ?_, ?_⟩
  · intro n offset h
    rw [hfutures] at h
    obtain ⟨req, hnumber, hreq⟩ := ok.results n offset h
    exact ⟨req, hnumber, change.appended_subset _ hreq⟩
  · rw [hphase, hfutures]
    exact ok.opened
  · exact fun p hp => (howed p hp).elim (fun h => change.appended_subset p (ok.owed p h)) id
  · intro req hreq hcallback hdone
    rw [hfutures] at hdone
    cases change.submitted_cases hreq with
    | inl hold => exact hheld req hcallback hdone (ok.held req hold hcallback hdone)
    | inr hline => exact Or.inl hline
  · rw [hphase, hfutures]
    intro hne
    rw [(hopen hne).1, (hopen hne).2]
    exact ok.drained hne
  · rw [hphase]
    exact fun hclosed => hidle hclosed (ok.idle hclosed)

/-- A step of the loop thread that moves requests along their line or adds one. -/
theorem Accounted.moves (ok : w.Accounted) (change : Change w w')
    (hrunning : w.phase = .running) (hfutures : w'.futures = w.futures)
    (hphase : w'.phase = w.phase) (howed : w'.owed = w.owed)
    (hline : ∀ t, ∀ req ∈ w.line t, req ∈ w'.line t) : w'.Accounted := by
  refine ok.keeps change hfutures hphase (fun hne => absurd hrunning hne) ?_ ?_ ?_
  · rw [hrunning]
    simp
  · exact fun p hp => Or.inl (howed ▸ hp)
  · intro req _ _ hheld
    rw [Held, howed]
    exact hheld.imp_left (hline req.topic req)

theorem flush_owed (w : Writer) (topic : String) (batch : List WriteRequest) :
    (w.flush topic batch).owed = w.owed := by
  simp [owed, flush]

theorem dequeue_owed (w : Writer) (topic : String) : (w.dequeue topic).owed = w.owed := by
  simp only [dequeue]
  split
  · split
    · rfl
    · split
      · exact flush_owed _ topic _
      · rfl
  · rfl

theorem timeout_owed (w : Writer) (topic : String) : (w.timeout topic).owed = w.owed := by
  simp only [timeout]
  split
  · exact flush_owed w topic _
  · rfl

theorem start_owed (w : Writer) : w.start.owed = w.owed := by
  simp only [start]
  split
  · rfl
  · next job rest hqueue =>
      split
      · simp [owed, hqueue]
      · rfl

/-- What a worker has in hand, apart from all the others. -/
theorem held_worker {worker : Nat} {job : FlushJob} (hjob : w.workers[worker]? = some job)
    (job' : FlushJob) (req : WriteRequest) :
    ({ w with workers := w.workers.set worker job' } : Writer).Held req ↔
      (req ∈ job'.pending req.topic ∨ ∃ offset, (req, offset) ∈ job'.offsets) ∨
        ({ w with workers := w.workers.eraseIdx worker } : Writer).Held req := by
  obtain ⟨before, after, -, hset, herase⟩ := split_at hjob
  simp only [Held, line, owed, hset, herase, List.flatMap_append, List.flatMap_cons,
    List.mem_append, exists_or]
  tauto

theorem owed_worker {worker : Nat} {job : FlushJob} (hjob : w.workers[worker]? = some job)
    (job' : FlushJob) (p : WriteRequest × Int) :
    p ∈ ({ w with workers := w.workers.set worker job' } : Writer).owed ↔
      p ∈ job'.offsets ∨ p ∈ ({ w with workers := w.workers.eraseIdx worker } : Writer).owed := by
  obtain ⟨before, after, -, hset, herase⟩ := split_at hjob
  simp only [owed, hset, herase, List.flatMap_append, List.flatMap_cons, List.mem_append]
  tauto

theorem set_self {worker : Nat} {job : FlushJob} (hjob : w.workers[worker]? = some job) :
    ({ w with workers := w.workers.set worker job } : Writer) = w := by
  obtain ⟨before, after, hworkers, hset, -⟩ := split_at hjob
  rw [hset, ← hworkers]

/-- Only an offset that has just been appended is new on its way back. -/
theorem WriteCase.owed {worker : Nat} {env : CallEnv} (h : WriteCase w worker env w') :
    ∀ p ∈ w'.owed, p ∈ w.owed ∨ p ∈ w'.appended := by
  cases h with
  | idle => exact fun _ hp => Or.inl hp
  | fails job req rest hjob hbatch herr =>
      have howed := owed_worker hjob job
      rw [set_self hjob] at howed
      exact fun p hp => Or.inl ((howed p).mpr (Or.inr hp))
  | writes job req rest offset hjob hbatch hok =>
      have howed := owed_worker hjob job
      rw [set_self hjob] at howed
      intro p hp
      cases (owed_worker hjob _ p).mp hp with
      | inl hoffset =>
          cases List.mem_append.mp hoffset with
          | inl hold => exact Or.inl ((howed p).mpr (Or.inl hold))
          | inr hnew => exact Or.inr (List.mem_append_right _ hnew)
      | inr hrest => exact Or.inl ((howed p).mpr (Or.inr hrest))

theorem Accounted.write (ok : w.Accounted) {worker : Nat} {env : CallEnv}
    (h : w.NothingLost (.write worker env)) : (w.write worker env).Accounted := by
  have change := write_change w worker env
  have hcase := writeCase w worker env
  generalize w.write worker env = w' at change hcase ⊢
  have howed := hcase.owed
  cases hcase with
  | idle => exact ok
  | fails job req rest hjob hbatch herr =>
      have hheld := held_worker hjob job
      rw [set_self hjob] at hheld
      refine ok.keeps change rfl rfl (fun _ => ⟨rfl, rfl⟩) ?_ howed ?_
      · rintro - ⟨hworkers, -⟩
        simp [hworkers] at hjob
      · intro r hcallback hdone hr
        refine ((hheld r).mp hr).resolve_left fun hlost => hdone (Or.inl ?_)
        -- the requests of the batch that raised are cancelled already
        refine h job (by simp [hjob]) req (by simp [hbatch]) ?_ r ?_ hcallback
        · obtain ⟨err, herr⟩ := herr
          rw [herr]
          rfl
        · cases hlost with
          | inl hpending => exact List.mem_append_left _ (FlushJob.mem_pending.mp hpending).2
          | inr hoffset =>
              obtain ⟨offset, hoffset⟩ := hoffset
              exact List.mem_append_right _ (List.mem_map_of_mem hoffset)
  | writes job req rest offset hjob hbatch hok =>
      have hheld := held_worker hjob job
      rw [set_self hjob] at hheld
      refine ok.keeps change rfl rfl (fun _ => ⟨rfl, rfl⟩) ?_ howed ?_
      · rintro - ⟨hworkers, -⟩
        simp [hworkers] at hjob
      · intro r _ _ hr
        refine (held_worker hjob _ r).mpr (((hheld r).mp hr).imp_left fun hmine => ?_)
        cases hmine with
        | inl hpending =>
            obtain ⟨htopic, hmem⟩ := FlushJob.mem_pending.mp hpending
            rw [hbatch] at hmem
            cases List.mem_cons.mp hmem with
            | inl heq => exact Or.inr ⟨offset, by simp [heq]⟩
            | inr hrest => exact Or.inl (FlushJob.mem_pending.mpr ⟨htopic, hrest⟩)
        | inr hoffset =>
            obtain ⟨offset', hoffset⟩ := hoffset
            exact Or.inr ⟨offset', List.mem_append_left _ hoffset⟩

theorem owed_ready (w : Writer) (calls : List (WriteRequest × Int)) (p : WriteRequest × Int) :
    p ∈ ({ w with ready := w.ready ++ calls } : Writer).owed ↔ p ∈ w.owed ∨ p ∈ calls := by
  simp only [owed, List.mem_append, or_assoc]

/-- The call of `set_result`, if there is a callback to make it for. -/
theorem ready_call (w : Writer) (req : WriteRequest) (offset : Int) :
    (if req.callback then w.ready ++ [(req, offset)] else w.ready) =
      w.ready ++ if req.callback then [(req, offset)] else [] := by
  split
  · rfl
  · exact (List.append_nil _).symm

theorem callSoon_owed (worker : Nat) : ∀ p ∈ (w.callSoon worker).owed, p ∈ w.owed := by
  intro p hp
  simp only [Writer.callSoon] at hp
  split at hp
  · next topic req offset rest hjob =>
      have howed := owed_worker hjob ⟨topic, [], (req, offset) :: rest⟩
      rw [set_self hjob] at howed
      rw [ready_call] at hp
      let v : Writer := { w with workers := w.workers.set worker ⟨topic, [], rest⟩ }
      refine (howed p).mpr ?_
      cases (owed_ready v (if req.callback then [(req, offset)] else []) p).mp hp with
      | inl hold => exact ((owed_worker hjob _ p).mp hold).imp_left (List.mem_cons_of_mem _)
      | inr hcall =>
          split at hcall
          · exact Or.inl (List.mem_singleton.mp hcall ▸ List.mem_cons_self)
          · cases hcall
  · next topic hjob =>
      have howed := owed_worker hjob ⟨topic, [], []⟩
      rw [set_self hjob] at howed
      exact (howed p).mpr (Or.inr hp)
  · exact hp

theorem Accounted.callSoon (ok : w.Accounted) (worker : Nat) : (w.callSoon worker).Accounted := by
  have change : Change w (w.callSoon worker) := step_change w (.callSoon worker)
  have howed : ∀ p ∈ (w.callSoon worker).owed, p ∈ w.owed := callSoon_owed worker
  simp only [Writer.callSoon] at change howed ⊢
  split at change
  · next topic req offset rest hjob =>
      have hheld := held_worker hjob ⟨topic, [], (req, offset) :: rest⟩
      rw [set_self hjob] at hheld
      rw [ready_call] at change ⊢
      let v : Writer := { w with workers := w.workers.set worker ⟨topic, [], rest⟩ }
      have hcalls := owed_ready v (if req.callback then [(req, offset)] else [])
      simp only [hjob, ready_call] at howed
      refine ok.keeps change rfl rfl (fun _ => ⟨rfl, rfl⟩) ?_ (fun p hp => Or.inl (howed p hp)) ?_
      · rintro - ⟨hworkers, -⟩
        simp [hworkers] at hjob
      · intro r hcallback _ hr
        have hmoved : v.Held r ∨ r = req := by
          cases (hheld r).mp hr with
          | inl hmine =>
              simp only [FlushJob.mem_pending, List.not_mem_nil, and_false, false_or] at hmine
              obtain ⟨offset', hoffset⟩ := hmine
              cases List.mem_cons.mp hoffset with
              | inl heq => exact Or.inr (congrArg Prod.fst heq)
              | inr hrest =>
                  exact Or.inl ((held_worker hjob _ r).mpr (Or.inl (Or.inr ⟨offset', hrest⟩)))
          | inr hothers => exact Or.inl ((held_worker hjob _ r).mpr (Or.inr hothers))
        cases hmoved with
        | inl hv =>
            refine hv.imp_right fun howed' => ?_
            obtain ⟨offset', hoffset⟩ := howed'
            exact ⟨offset', (hcalls _).mpr (Or.inl hoffset)⟩
        | inr heq =>
            subst heq
            exact Or.inr ⟨offset, (hcalls _).mpr (Or.inr (by simp [hcallback]))⟩
  · next topic hjob =>
      have hheld := held_worker hjob ⟨topic, [], []⟩
      rw [set_self hjob] at hheld
      simp only [hjob] at howed
      refine ok.keeps change rfl rfl (fun _ => ⟨rfl, rfl⟩) ?_ (fun p hp => Or.inl (howed p hp)) ?_
      · rintro - ⟨hworkers, -⟩
        simp [hworkers] at hjob
      · intro r _ _ hr
        refine ((hheld r).mp hr).resolve_left ?_
        simp [FlushJob.mem_pending]
  · exact ok

/-- The callback at the head of the loop is completed, unless it is done already. -/
theorem Accounted.runReady (ok : w.Accounted) : w.runReady.Accounted := by
  simp only [Writer.runReady]
  split
  · exact ok
  · next req offset rest hready =>
      have hhead : (req, offset) ∈ w.appended := ok.owed _ (by simp [Writer.owed, hready])
      have hrest : ∀ r, w.Held r → r ≠ req → ∀ futures,
          ({ w with ready := rest, futures := futures } : Writer).Held r := by
        intro r hr hne futures
        refine hr.imp_right fun howed => ?_
        obtain ⟨offset', hoffset⟩ := howed
        refine ⟨offset', ?_⟩
        simp only [Writer.owed, hready, List.mem_append, List.mem_cons, Prod.mk.injEq] at hoffset ⊢
        tauto
      have howed : ∀ futures, ∀ p ∈ ({ w with ready := rest, futures := futures } : Writer).owed,
          p ∈ w.appended := by
        intro futures p hp
        refine ok.owed p ?_
        simp only [Writer.owed, hready, List.mem_append, List.mem_cons] at hp ⊢
        tauto
      have tidy : ∀ futures, ({ w with ready := rest, futures := futures } : Writer).Tidy :=
        fun _ => ok.tidy.change (.keeps rfl rfl fun _ => rfl)
      by_cases hdone : w.futures.Done req.number
      · simp only [Futures.complete, if_pos hdone, Option.getD_none]
        refine ⟨tidy _, ok.once, ok.results, ok.opened, howed _, ?_, ok.lawful,
          ok.drained, ok.idle⟩
        intro r hr hcallback hopen
        exact hrest r (ok.held r hr hcallback hopen) (fun heq => hopen (heq ▸ hdone)) _
      · simp only [Futures.complete_of_not_done hdone, Option.getD_some]
        refine ⟨tidy _, ?_, ?_, ?_, howed _, ?_, ok.lawful, ok.drained, ok.idle⟩
        · simp only [List.map_append, List.map_cons, List.map_nil]
          exact List.nodup_append.mpr ⟨ok.once, by simp, fun a ha b hb =>
            fun heq => hdone (Or.inr (by simp only [List.mem_singleton] at hb; rwa [← hb, ← heq]))⟩
        · intro n offset' h
          cases List.mem_append.mp h with
          | inl hold => exact ok.results n offset' hold
          | inr hnew =>
              cases List.mem_singleton.mp hnew
              exact ⟨req, rfl, hhead⟩
        · intro hrunning c hc
          cases List.mem_append.mp hc with
          | inl hold => exact ok.opened hrunning c hold
          | inr hnew => exact ⟨offset, by rw [List.mem_singleton.mp hnew]⟩
        · intro r hr hcallback hopen
          have hopen' : ¬ w.futures.Done r.number := by
            refine fun h => hopen (h.imp_right fun hmem => ?_)
            simp only [List.map_append]
            exact List.mem_append_left _ hmem
          refine hrest r (ok.held r hr hcallback hopen') (fun heq => hopen (Or.inr ?_)) _
          simp [heq]

theorem Accounted.cancel (ok : w.Accounted) (n : Nat) :
    ({ w with futures := w.futures.cancel n } : Writer).Accounted := by
  have hcompleted := w.futures.cancel_completed n
  refine ⟨ok.tidy.change (.keeps rfl rfl fun _ => rfl), ?_, ?_, ?_, ok.owed, ?_, ok.lawful, ?_,
    ok.idle⟩
  · simp only [hcompleted]
    exact ok.once
  · simp only [hcompleted]
    exact ok.results
  · simp only [hcompleted]
    exact ok.opened
  · intro req hreq hcallback hopen
    exact ok.held req hreq hcallback fun h => hopen (Futures.done_cancel.mpr (Or.inl h))
  · intro hphase t
    obtain ⟨hqueue, hbatch⟩ := ok.drained hphase t
    exact ⟨hqueue, fun req hreq hcallback =>
      Futures.cancelled_cancel (hbatch req hreq hcallback)⟩

theorem fail_append (f : Futures) (a b : List WriteRequest) :
    (f.fail a).fail b = f.fail (a ++ b) := by
  simp [Futures.fail]

/-- A queue of pending callbacks is emptied, and each of them is completed. -/
theorem drainQueue_ok {f : Futures} {q : List WriteRequest}
    (hopen : ∀ req ∈ q, req.callback = true → ¬ f.Done req.number)
    (hnodup : (q.map WriteRequest.number).Nodup) : drainQueue f q = ([], f.fail q, true) := by
  induction q generalizing f with
  | nil => simp [drainQueue, Futures.fail]
  | cons req rest ih =>
      obtain ⟨hfresh, hrest⟩ := List.nodup_cons.mp hnodup
      have hcons : f.fail (req :: rest) = (f.fail [req]).fail rest := by
        rw [fail_append, List.singleton_append]
      have hopen' : ∀ r ∈ rest, r.callback = true → ¬ (f.fail [req]).Done r.number := by
        intro r hr hcallback hdone
        cases Futures.done_fail.mp hdone with
        | inl hold => exact hopen r (List.mem_cons_of_mem _ hr) hcallback hold
        | inr hnew =>
            obtain ⟨r', hr', -, heq⟩ := hnew
            rw [List.mem_singleton.mp hr'] at heq
            exact hfresh (heq ▸ List.mem_map_of_mem hr)
      rw [hcons, ← ih hopen' hrest]
      simp only [drainQueue]
      split
      · next hcallback =>
          rw [Futures.complete_of_not_done (hopen req List.mem_cons_self hcallback)]
          simp [Futures.fail, hcallback]
      · next hcallback => simp [Futures.fail, hcallback]

theorem drainQueues_ok {queues : Dict String (List WriteRequest)} {f : Futures}
    {topics : List String} (htopics : topics.Nodup)
    (hopen : ∀ req ∈ topics.flatMap (queueOf queues), req.callback = true → ¬ f.Done req.number)
    (hnodup : ((topics.flatMap (queueOf queues)).map WriteRequest.number).Nodup) :
    (drainQueues queues f topics).2 = (f.fail (topics.flatMap (queueOf queues)), true) ∧
      ∀ t, queueOf (drainQueues queues f topics).1 t = if t ∈ topics then [] else queueOf queues t := by
  induction topics generalizing queues f with
  | nil => simp [drainQueues, Futures.fail]
  | cons topic topics ih =>
      obtain ⟨hnew, htopics⟩ := List.nodup_cons.mp htopics
      simp only [List.flatMap_cons, List.map_append] at hopen hnodup
      obtain ⟨hhead, htail, hdisjoint⟩ := List.nodup_append.mp hnodup
      have hdrain := drainQueue_ok (fun req hreq => hopen req (List.mem_append_left _ hreq)) hhead
      -- the queues after it are not touched
      have hrest : topics.flatMap (queueOf (queues.set topic [])) =
          topics.flatMap (queueOf queues) := by
        refine List.flatMap_congr fun t ht => ?_
        have hne : t ≠ topic := fun heq => hnew (heq ▸ ht)
        rw [queueOf_set, if_neg hne]
      have hopen' : ∀ req ∈ topics.flatMap (queueOf (queues.set topic [])),
          req.callback = true → ¬ (f.fail (queueOf queues topic)).Done req.number := by
        intro req hreq hcallback hdone
        rw [hrest] at hreq
        cases Futures.done_fail.mp hdone with
        | inl hold => exact hopen req (List.mem_append_right _ hreq) hcallback hold
        | inr hfailed =>
            obtain ⟨r, hr, -, heq⟩ := hfailed
            exact hdisjoint _ (List.mem_map_of_mem hr) _ (List.mem_map_of_mem hreq) heq
      obtain ⟨hresult, hqueues⟩ := ih htopics hopen' (by rw [hrest]; exact htail)
      simp only [drainQueues, hdrain]
      refine ⟨?_, fun t => ?_⟩
      · rw [hresult, hrest, fail_append, List.flatMap_cons]
      · rw [hqueues, queueOf_set]
        by_cases ht : t = topic
        · simp [ht]
        · simp [ht]

theorem queueOf_of_not_mem {queues : Dict String (List WriteRequest)} {t : String}
    (h : t ∉ queues.keys) : queueOf queues t = [] := by
  simp [queueOf, (Dict.get?_eq_none_iff queues t).mpr h]

theorem mem_queues {queues : Dict String (List WriteRequest)} {req : WriteRequest} :
    req ∈ queues.keys.flatMap (queueOf queues) ↔ ∃ t, req ∈ queueOf queues t := by
  simp only [List.mem_flatMap]
  constructor
  · rintro ⟨t, -, h⟩
    exact ⟨t, h⟩
  · rintro ⟨t, h⟩
    refine ⟨t, ?_, h⟩
    by_contra hkey
    rw [queueOf_of_not_mem hkey] at h
    cases h

theorem queue_subset_line {t : String} {req : WriteRequest} (h : req ∈ queueOf w.topicQueue t) :
    req ∈ w.line t :=
  List.mem_append_right _ (List.mem_append_right _ h)

/-- The queued requests all have different numbers. -/
theorem Tidy.queues_nodup (tidy : w.Tidy) :
    ((w.topicQueue.keys.flatMap (queueOf w.topicQueue)).map WriteRequest.number).Nodup := by
  refine List.Nodup.map_on ?_ (List.nodup_flatMap.mpr ⟨?_, ?_⟩)
  · intro a ha b hb heq
    obtain ⟨t, ha⟩ := mem_queues.mp ha
    obtain ⟨u, hb⟩ := mem_queues.mp hb
    exact tidy.eq_of_number (tidy.known t a (queue_subset_line ha)).2
      (tidy.known u b (queue_subset_line hb)).2 heq
  · intro t _
    have hsub : (queueOf w.topicQueue t).Sublist (w.line t) :=
      (List.sublist_append_right _ _).trans (List.sublist_append_right _ _)
    refine List.Pairwise.imp ?_ ((tidy.sorted t).sublist hsub)
    intro a b hlt heq
    exact absurd hlt (heq ▸ lt_irrefl _)
  · have hkeys : w.topicQueue.keys.Pairwise (· ≠ ·) := w.topicQueue.nodup
    refine hkeys.imp fun {t u} hne req ht hu => hne ?_
    exact (tidy.known t req (queue_subset_line ht)).1.symm.trans
      (tidy.known u req (queue_subset_line hu)).1

/-- Nothing that waits in a queue has been completed or, where nothing is lost, cancelled. -/
theorem Accounted.queued_open (ok : w.Accounted) (hrunning : w.phase = .running)
    (h : w.NothingLost .close) :
    ∀ req ∈ w.topicQueue.keys.flatMap (queueOf w.topicQueue), req.callback = true →
      ¬ w.futures.Done req.number := by
  intro req hreq hcallback hdone
  obtain ⟨t, hmem⟩ := mem_queues.mp hreq
  have hknown := ok.tidy.known t req (queue_subset_line hmem)
  cases hdone with
  | inl hcancelled =>
      obtain ⟨q, hq⟩ : ∃ q, w.topicQueue.get? t = some q := by
        cases hget : w.topicQueue.get? t with
        | some q => exact ⟨q, rfl⟩
        | none => simp [queueOf, hget] at hmem
      refine h.2 q ((Dict.mem_values_iff _ _).mpr ⟨t, hq⟩) req ?_ hcallback hcancelled
      simpa [queueOf, hq] using hmem
  | inr hcompleted =>
      obtain ⟨⟨n, outcome⟩, hc, hn⟩ := List.mem_map.mp hcompleted
      obtain ⟨offset, rfl⟩ := ok.opened hrunning _ hc
      obtain ⟨r, hr, happended⟩ := ok.results _ _ hc
      have heq : r = req :=
        ok.tidy.eq_of_number (ok.tidy.recorded _ happended) hknown.2 (hr.trans hn)
      exact ok.tidy.gone _ happended t (heq ▸ queue_subset_line hmem)

/-- The queues are empty, and the futures of what waited in them have failed. -/
structure Closes (w w' : Writer) : Prop where
  phase : w'.phase = .shuttingDown
  futures : w'.futures = w.futures.fail (w.topicQueue.keys.flatMap (queueOf w.topicQueue))
  queues : ∀ t, queueOf w'.topicQueue t = []

theorem Accounted.closes (ok : w.Accounted) (hrunning : w.phase = .running)
    (h : w.NothingLost .close) : Closes w w.close := by
  obtain ⟨hresult, hempty⟩ :=
    drainQueues_ok w.topicQueue.nodup (ok.queued_open hrunning h) ok.tidy.queues_nodup
  have hdrained : (drainQueues w.topicQueue w.futures w.topicQueue.keys).2.2 = true :=
    congrArg Prod.snd hresult
  refine ⟨by simp [Writer.close, hdrained], congrArg Prod.fst hresult, fun t => ?_⟩
  refine (hempty t).trans ?_
  split
  · rfl
  · next hkey => exact queueOf_of_not_mem hkey

theorem Closes.completed {w' : Writer} (closes : Closes w w') {c : Nat × Outcome}
    (hc : c ∈ w'.futures.completed) :
    c ∈ w.futures.completed ∨ ∃ message, c.2 = .exception message := by
  rw [closes.futures] at hc
  cases List.mem_append.mp hc with
  | inl hold => exact Or.inl hold
  | inr hnew =>
      obtain ⟨req, -, rfl⟩ := List.mem_map.mp hnew
      exact Or.inr ⟨_, rfl⟩

theorem Accounted.close (ok : w.Accounted) (hrunning : w.phase = .running)
    (h : w.NothingLost .close) : w.close.Accounted := by
  have hopen := ok.queued_open hrunning h
  have closes := ok.closes hrunning h
  refine ⟨ok.tidy.change (.shrinks rfl rfl (close_line w)), ?_, ?_, ?_, ok.owed, ?_, ?_, ?_, ?_⟩
  · rw [closes.futures]
    simp only [Futures.fail, List.map_append, List.map_map]
    refine List.nodup_append.mpr ⟨ok.once, ?_, ?_⟩
    · exact ok.tidy.queues_nodup.sublist (List.filter_sublist.map _)
    · intro n hn m hm heq
      obtain ⟨req, hreq, rfl⟩ := List.mem_map.mp hm
      obtain ⟨hmem, hcallback⟩ := List.mem_filter.mp hreq
      exact hopen req hmem hcallback (Or.inr (by rw [heq] at hn; exact hn))
  · intro n offset hc
    refine ok.results n offset ((closes.completed hc).resolve_right ?_)
    rintro ⟨message, hmessage⟩
    cases hmessage
  · rw [closes.phase]
    simp
  · intro req hreq hcallback hdone
    rw [closes.futures, Futures.done_fail, not_or] at hdone
    refine (ok.held req hreq hcallback hdone.1).imp_left fun hline => ?_
    simp only [line, List.mem_append] at hline ⊢
    refine hline.imp_right (Or.imp_right fun hqueued => ?_)
    exact absurd ⟨req, mem_queues.mpr ⟨_, hqueued⟩, hcallback, rfl⟩ hdone.2
  · rw [closes.phase]
    simp
  · refine fun _ t => ⟨closes.queues t, fun req hreq hcallback => ?_⟩
    obtain ⟨collector, hget⟩ : ∃ collector, w.topicTask.get? t = some collector := by
      cases hget : w.topicTask.get? t with
      | some collector => exact ⟨collector, rfl⟩
      | none => simp [batchOf, Writer.close, hget] at hreq
    rw [show w.close.topicTask = w.topicTask from rfl, batchOf_some hget] at hreq
    rw [closes.futures]
    exact h.1 collector ((Dict.mem_values_iff _ _).mpr ⟨t, hget⟩) req hreq hcallback
  · rw [closes.phase]
    simp

theorem Accounted.start (ok : w.Accounted) : w.start.Accounted := by
  have change : Change w w.start := step_change w .start
  have howed := start_owed w
  have hline := start_line w
  obtain heq | ⟨job, rest, hqueue, -, heq⟩ := start_cases w
  · rw [heq]
    exact ok
  · rw [heq] at change howed hline ⊢
    refine ok.keeps change rfl rfl (fun _ => ⟨rfl, rfl⟩) ?_ (fun p hp => Or.inl (howed ▸ hp)) ?_
    · rintro - ⟨-, hempty⟩
      rw [hempty] at hqueue
      cases hqueue
    · intro req _ _ hheld
      rw [Held, hline, howed]
      exact hheld

theorem Accounted.step (ok : w.Accounted) {e : WriterEvent} (h : w.NothingLost e) :
    (w.step e).Accounted := by
  have change := step_change w e
  cases e with
  | submit producerId topic data createdAt callback =>
      simp only [Writer.step] at change ⊢
      split
      · next hrunning =>
          rw [if_pos hrunning] at change
          refine ok.moves change hrunning rfl rfl rfl fun t req hreq => ?_
          rw [submit_line]
          exact List.mem_append_left _ hreq
      · exact ok
  | dequeue topic =>
      simp only [Writer.step] at change ⊢
      split
      · next hrunning =>
          rw [if_pos hrunning] at change
          have collects := dequeue_collects w topic
          exact ok.moves change hrunning collects.futures collects.phase (dequeue_owed w topic)
            fun t req hreq => (dequeue_line w topic t).symm ▸ hreq
      · exact ok
  | timeout topic =>
      simp only [Writer.step] at change ⊢
      split
      · next hrunning =>
          rw [if_pos hrunning] at change
          have collects := timeout_collects w topic
          exact ok.moves change hrunning collects.futures collects.phase (timeout_owed w topic)
            fun t req hreq => (timeout_line w topic t).symm ▸ hreq
      · exact ok
  | start => exact ok.start
  | write worker env => exact ok.write h
  | callSoon worker => exact ok.callSoon worker
  | runReady =>
      simp only [Writer.step]
      split
      · exact ok
      · exact ok.runReady
  | cancel number =>
      simp only [Writer.step]
      split
      · exact ok
      · exact ok.cancel number
  | close =>
      simp only [Writer.step]
      split
      · next hrunning => exact ok.close hrunning h
      · exact ok
  | shutdown =>
      simp only [Writer.step]
      split
      · next hdone =>
          refine ⟨ok.tidy.change (.keeps rfl rfl fun _ => rfl), ok.once, ok.results, by simp, ok.owed,
            ok.held, by simp, fun _ => ok.drained ?_, fun _ => ⟨hdone.2.2, hdone.2.1⟩⟩
          rw [hdone.1]
          simp
      · exact ok
  | other op =>
      exact ok.keeps change rfl rfl (fun _ => ⟨rfl, rfl⟩) (fun _ => id) (fun _ => Or.inl)
        fun _ _ _ => id

theorem accounted_new {config : WriterConfig} {log : LogManager}
    (h : Writer.new config log = some w) : w.Accounted := by
  have tidy := tidy_new h
  simp only [Writer.new] at h
  split at h
  · cases h
  · cases h
    exact ⟨tidy, List.nodup_nil, by simp, by simp, fun _ howed => absurd howed List.not_mem_nil,
      by simp, by simp, fun hne => absurd rfl hne, by simp⟩

end

/-- The steps of the thread pool. -/
def OnPool : WriterEvent → Prop
  | .start | .write .. | .callSoon _ => True
  | _ => False

/-- A bound on the steps that the thread pool has left. -/
def unfinished (w : Writer) : Nat :=
  (w.workQueue.map fun job => 2 * job.batch.length + job.offsets.length + 2).sum +
    (w.workers.map fun job => 2 * job.batch.length + job.offsets.length + 1).sum

/-- The wait of `close` comes to its end: the thread pool always has a step to take until
it is done, and every step it takes brings the end closer. -/
structure Returns (w : Writer) : Prop where
  ends : w.unfinished = 0 → (w.step .shutdown).phase = .closed
  goes_on : w.unfinished ≠ 0 → ∃ e, OnPool e ∧ (w.step e).unfinished < w.unfinished
  decreases : ∀ e, OnPool e → w.step e = w ∨ (w.step e).unfinished < w.unfinished

section
variable {w : Writer}

/-- Replacing what a worker has in hand changes the bound by the difference. -/
theorem unfinished_worker {worker : Nat} {job : FlushJob} (hjob : w.workers[worker]? = some job)
    (job' : FlushJob) :
    ({ w with workers := w.workers.set worker job' } : Writer).unfinished =
      ({ w with workers := w.workers.eraseIdx worker } : Writer).unfinished +
        (2 * job'.batch.length + job'.offsets.length + 1) := by
  obtain ⟨before, after, -, hset, herase⟩ := split_at hjob
  simp only [unfinished, hset, herase, List.map_append, List.map_cons, List.sum_append,
    List.sum_cons]
  omega

theorem write_lt {worker : Nat} {topic : String} {req : WriteRequest} {rest : List WriteRequest}
    {offsets : List (WriteRequest × Int)}
    (hjob : w.workers[worker]? = some ⟨topic, req :: rest, offsets⟩) (env : CallEnv) :
    (w.write worker env).unfinished < w.unfinished := by
  have hself := unfinished_worker hjob ⟨topic, req :: rest, offsets⟩
  rw [set_self hjob] at hself
  rw [hself]
  simp only [write, hjob]
  split
  · exact Nat.lt_add_of_pos_right (Nat.succ_pos _)
  · refine lt_of_eq_of_lt (unfinished_worker hjob _) ?_
    simp only [List.length_append, List.length_cons, List.length_nil]
    omega

theorem callSoon_lt {worker : Nat} {topic : String} {offsets : List (WriteRequest × Int)}
    (hjob : w.workers[worker]? = some ⟨topic, [], offsets⟩) :
    (w.callSoon worker).unfinished < w.unfinished := by
  have hself := unfinished_worker hjob ⟨topic, [], offsets⟩
  rw [set_self hjob] at hself
  rw [hself]
  cases offsets with
  | nil =>
      simp only [callSoon, hjob]
      exact Nat.lt_add_of_pos_right (Nat.succ_pos _)
  | cons p rest =>
      simp only [callSoon, hjob]
      refine lt_of_eq_of_lt (unfinished_worker hjob _) ?_
      simp only [List.length_cons]
      omega

theorem start_decreases (w : Writer) : w.start = w ∨ w.start.unfinished < w.unfinished := by
  obtain heq | ⟨job, rest, hqueue, -, heq⟩ := start_cases w
  · exact Or.inl heq
  · refine Or.inr ?_
    rw [heq]
    simp only [unfinished, hqueue, List.map_append, List.map_cons, List.map_nil, List.sum_append,
      List.sum_cons, List.sum_nil]
    omega

theorem returns_of_shuttingDown (hworkers : 0 < w.config.maxWorkers)
    (hphase : w.phase = .shuttingDown) : w.Returns := by
  refine ⟨fun hdone => ?_, fun hleft => ?_, fun e he => ?_⟩
  · have hempty : w.workQueue = [] ∧ w.workers = [] := by
      cases hqueue : w.workQueue with
      | cons job rest => simp [unfinished, hqueue] at hdone
      | nil =>
          cases hlist : w.workers with
          | cons job rest => simp [unfinished, hlist] at hdone
          | nil => exact ⟨rfl, rfl⟩
    simp [step, hphase, hempty.1, hempty.2]
  · cases hlist : w.workers with
    | nil =>
        cases hqueue : w.workQueue with
        | nil => simp [unfinished, hlist, hqueue] at hleft
        | cons job rest =>
            refine ⟨.start, trivial, (start_decreases w).resolve_left fun heq => ?_⟩
            have hlength := congrArg (fun w => w.workers.length) heq
            simp [start, hqueue, hlist, hworkers] at hlength
    | cons job others =>
        obtain ⟨topic, batch, offsets⟩ := job
        cases batch with
        | nil => exact ⟨.callSoon 0, trivial, callSoon_lt (by rw [hlist]; rfl)⟩
        | cons req rest =>
            exact ⟨.write 0 ⟨0, .succeed⟩, trivial, write_lt (by rw [hlist]; rfl) _⟩
  · cases e with
    | start => exact start_decreases w
    | write worker env =>
        cases hjob : w.workers[worker]? with
        | none => exact Or.inl (by simp [step, write, hjob])
        | some job =>
            obtain ⟨topic, batch, offsets⟩ := job
            cases batch with
            | nil => exact Or.inl (by simp [step, write, hjob])
            | cons req rest => exact Or.inr (write_lt hjob env)
    | callSoon worker =>
        cases hjob : w.workers[worker]? with
        | none => exact Or.inl (by simp [step, callSoon, hjob])
        | some job =>
            obtain ⟨topic, batch, offsets⟩ := job
            cases batch with
            | nil => exact Or.inr (callSoon_lt hjob)
            | cons req rest => exact Or.inl (by simp [step, callSoon, hjob])
    | _ => exact he.elim

theorem run_config (events : List WriterEvent) : (run advance w events).config = w.config := by
  induction events generalizing w with
  | nil => rfl
  | cons e events ih => exact ih.trans (step_config w e)

end

/-- The callback of a request has been completed exactly once, and if with an offset,
then with the one its data was appended at. -/
def CompletedOnce (w : Writer) (req : WriteRequest) : Prop :=
  (w.futures.completed.map Prod.fst).count req.number = 1 ∧
    ∃ outcome, (req.number, outcome) ∈ w.futures.completed ∧
      ∀ offset, outcome = .result offset → (req, offset) ∈ w.appended

/-- After `close` has returned and the loop has run what was ready, nothing is open. -/
theorem Accounted.completed {w : Writer} (ok : w.Accounted) (hclosed : w.phase = .closed)
    (hready : w.ready = []) {req : WriteRequest} (hreq : req ∈ w.submitted)
    (hcallback : req.callback = true) (hlive : req.number ∉ w.futures.cancelled) :
    w.CompletedOnce req := by
  obtain ⟨hworkers, hqueue⟩ := ok.idle hclosed
  obtain ⟨hempty, hbatch⟩ := ok.drained (by rw [hclosed]; simp) req.topic
  have hdone : w.futures.Done req.number := by
    by_contra hopen
    cases ok.held req hreq hcallback hopen with
    | inl hline =>
        simp only [line, hworkers, hqueue, hempty, List.append_nil, List.flatMap_nil,
          List.nil_append] at hline
        exact hlive (hbatch req hline hcallback)
    | inr howed =>
        obtain ⟨offset, howed⟩ := howed
        simp [Writer.owed, hworkers, hqueue, hready] at howed
  have hcompleted := hdone.resolve_left hlive
  obtain ⟨⟨n, outcome⟩, hmem, hn⟩ := List.mem_map.mp hcompleted
  refine ⟨List.count_eq_one_of_mem ok.once hcompleted, outcome, hn ▸ hmem, ?_⟩
  rintro offset rfl
  obtain ⟨r, hr, happended⟩ := ok.results _ _ hmem
  have heq : r = req := ok.tidy.eq_of_number (ok.tidy.recorded _ happended) hreq (hr.trans hn)
  exact heq ▸ happended

/-- If no live callback is in a collector's batch at `close` or in a batch whose append
raises, and none of the queued ones has been cancelled, then `close` does not raise, it
returns, and every callback that was not cancelled is completed exactly once. -/
theorem close_completes_callbacks (config : WriterConfig) (log : LogManager) (w : Writer)
    (events : List WriterEvent) (hnew : Writer.new config log = some w)
    (safe : MeetsAll advance NothingLost w events) :
    let w' := run advance w events
    w'.phase ≠ .raised ∧ (w'.phase = .shuttingDown → w'.Returns) ∧
      (w'.phase = .closed → w'.ready = [] → ∀ req ∈ w'.submitted, req.callback = true →
        req.number ∉ w'.futures.cancelled → w'.CompletedOnce req) := by
  have ok : (run advance w events).Accounted :=
    safe.invariant Accounted (fun w e ok h => ok.step h) (accounted_new hnew)
  have hworkers : 0 < (run advance w events).config.maxWorkers := by
    rw [run_config]
    simp only [Writer.new] at hnew
    split at hnew
    · cases hnew
    · next hpositive =>
        cases hnew
        exact not_le.mp hpositive
  refine ⟨ok.lawful, returns_of_shuttingDown hworkers, ?_⟩
  intro hclosed hready req hreq hcallback hlive
  exact ok.completed hclosed hready hreq hcallback hlive

/-- The first request is appended before `close` and the third one still queued; the second
one is in the collector's batch, but its client has given up. -/
def orderlyClose : List WriterEvent :=
  [.submit "p" "t" [7] 1 true, .dequeue "t", .timeout "t", .start, .write 0 ⟨1, .succeed⟩,
    .callSoon 0, .callSoon 0, .submit "p" "t" [8] 1 true, .dequeue "t", .cancel 1,
    .submit "p" "t" [9] 1 true, .close, .shutdown, .runReady]

theorem close_completes_callbacks_orderly :
    let w := run advance fresh orderlyClose
    w.phase = .closed ∧ w.ready = [] ∧ w.futures.completed =
        [(2, .exception "Writer is closing"), (0, .result 0)] ∧
      ∀ req ∈ w.submitted, req.callback = true → req.number ∉ w.futures.cancelled →
        w.CompletedOnce req := by
  have hclosed : (run advance fresh orderlyClose).phase = .closed := by decide +kernel
  have hready : (run advance fresh orderlyClose).ready = [] := by decide +kernel
  have h := close_completes_callbacks {} emptyLog fresh orderlyClose rfl (by decide +kernel)
  exact ⟨hclosed, hready, by decide +kernel, h.2.2 hclosed hready⟩

/-- `close` has returned and the loop has nothing left to run, but a callback is open. -/
def LeavesOpen (w : Writer) : Prop :=
  w.phase = .closed ∧ w.ready = [] ∧ ∃ req ∈ w.submitted, req.callback = true ∧
    req.number ∉ w.futures.cancelled ∧ ¬ w.CompletedOnce req

theorem leavesOpen_of_pending {w : Writer} (hclosed : w.phase = .closed) (hready : w.ready = [])
    (hopen : ∃ req ∈ w.submitted, req.callback = true ∧ ¬ w.futures.Done req.number) :
    w.LeavesOpen := by
  obtain ⟨req, hreq, hcallback, hdone⟩ := hopen
  refine ⟨hclosed, hready, req, hreq, hcallback, fun h => hdone (Or.inl h), ?_⟩
  rintro ⟨-, outcome, hmem, -⟩
  exact hdone (Or.inr (List.mem_map_of_mem hmem))

def closedOnBatch : List WriterEvent :=
  [.submit "p" "t" [7] 1 true, .dequeue "t", .close, .shutdown]

def closedAfterError : List WriterEvent :=
  [.submit "p" "t" [7] 1 true, .dequeue "t", .timeout "t", .start,
    .write 0 ⟨1, { FileOps.succeed with openFile := false }⟩, .close, .shutdown]

/-- A request in the collector's batch when the writer is closed is never completed; neither
is one whose append raises; and a cancelled one in the queue makes `close` raise. -/
theorem callback_lost :
    (run advance fresh closedOnBatch).LeavesOpen ∧
      (run advance fresh closedAfterError).LeavesOpen ∧
      (run advance fresh [.submit "p" "t" [7] 1 true, .cancel 0, .close]).phase = .raised := by
  refine ⟨leavesOpen_of_pending ?_ ?_ ?_, leavesOpen_of_pending ?_ ?_ ?_, ?_⟩
  all_goals decide +kernel

end Writer
end PyLogStream
